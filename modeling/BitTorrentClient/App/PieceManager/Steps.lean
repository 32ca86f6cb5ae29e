/-
  App/PieceManager/Steps.lean --- what one call of the piece manager can do.

  Each state-changing member function gets one inversion theorem: if the call
  came back, the state after it is one of a few named updates of the state
  before, with the tests that selected it as hypotheses.  No later file unfolds
  `requestBlock`, `deliverBlock` or `returnBlock`.
-/
import BitTorrentClient.App.PieceManager
import Mathlib.Tactic.Simps.Basic

set_option autoImplicit false

namespace BitTorrentClient

open Library

namespace PieceManager

/-! ## Looking for a block -/

/-- A turn of the loop, while there is fuel for the rest of the piece. -/
theorem findGap_turn {pending : BlockSet} {index pieceLength fuel offset : Nat}
    (hlen : pieceLength < 2 ^ 32) (hlt : offset < pieceLength) :
    findGap pending index pieceLength (fuel + 1) offset =
      if pending.Has (blockKey index offset) then
        findGap pending index pieceLength fuel
          (offset + min blockLen (pieceLength - offset))
      else some ⟨index, offset, min blockLen (pieceLength - offset)⟩ := by
  have hnowrap : u32 (offset + min blockLen (pieceLength - offset)) =
      offset + min blockLen (pieceLength - offset) := u32_of_lt (by omega)
  rw [findGap, if_pos hlt]
  simp only [KeyedSet.contains_iff, Block.key, hnowrap]

/-- A block that is found is not pending, and every block before it is: the
search moved from `offset` in steps of a full block. -/
theorem findGap_eq_some {pending : BlockSet} {index pieceLength : Nat}
    (hlen : pieceLength < 2 ^ 32) {fuel offset : Nat} {block : Block}
    (h : findGap pending index pieceLength fuel offset = some block) :
    ∃ k, block = ⟨index, offset + k * blockLen,
        min blockLen (pieceLength - (offset + k * blockLen))⟩ ∧
      offset + k * blockLen < pieceLength ∧
      ¬ pending.Has block.key ∧
      ∀ j < k, pending.Has (blockKey index (offset + j * blockLen)) := by
  induction fuel generalizing offset with
  | zero => simp [findGap] at h
  | succ fuel ih =>
    by_cases hlt : offset < pieceLength
    · rw [findGap_turn hlen hlt] at h
      split at h
      · rename_i hheld
        obtain ⟨k, rfl, hin, hfree, hbefore⟩ := ih h
        -- the search went on, so the block it passed was a full one
        have hfull : min blockLen (pieceLength - offset) = blockLen := by omega
        rw [hfull] at hin hfree hbefore ⊢
        have hshift : ∀ j, offset + blockLen + j * blockLen = offset + (j + 1) * blockLen := by
          intro j; rw [Nat.succ_mul]; omega
        rw [hshift] at hin hfree ⊢
        refine ⟨k + 1, rfl, hin, hfree, ?_⟩
        intro j hj
        cases j with
        | zero => simpa using hheld
        | succ j => rw [← hshift]; exact hbefore j (by omega)
      · rename_i hfree
        have hblock := (Option.some.inj h).symm
        subst hblock
        exact ⟨0, by simp, by simpa using hlt, by simpa [Block.key] using hfree,
          fun j hj => absurd hj (Nat.not_lt_zero j)⟩
    · rw [findGap, if_neg hlt] at h
      simp at h

/-- When nothing is found, every block from `offset` on is pending. -/
theorem findGap_eq_none {pending : BlockSet} {index pieceLength : Nat}
    (hlen : pieceLength < 2 ^ 32) {fuel offset : Nat} (hfuel : pieceLength ≤ offset + fuel)
    (h : findGap pending index pieceLength fuel offset = none) :
    ∀ j, offset + j * blockLen < pieceLength →
      pending.Has (blockKey index (offset + j * blockLen)) := by
  induction fuel generalizing offset with
  | zero => intro j hj; omega
  | succ fuel ih =>
    intro j hj
    have hlt : offset < pieceLength := by omega
    have hpos : 0 < blockLen := by decide
    rw [findGap_turn hlen hlt] at h
    split at h
    · rename_i hheld
      cases j with
      | zero => simpa using hheld
      | succ j =>
        rw [Nat.succ_mul] at hj ⊢
        have hfull : min blockLen (pieceLength - offset) = blockLen := by omega
        rw [hfull] at h
        have hnext := @ih (offset + blockLen) (by omega) h j (by omega)
        rwa [show offset + blockLen + j * blockLen = offset + (j * blockLen + blockLen) by omega]
          at hnext
    · simp at h

/-- A call of `_getNextBlockForPiece` that handed a block out. -/
structure HandsOut (m : PieceManager) (index : Nat) (block : Block) (m' : PieceManager) :
    Prop where
  /-- the length of the piece, and where its search starts -/
  found : ∃ len next, m.getPieceLength index = .ok len ∧ m.nextOffsets[index]? = some next ∧
    findGap m.pendingBlocks index (u32 len) (u32 len - next) next = some block
  /-- the block is pending now and the search will start behind it -/
  target : m' = { m with
    pendingBlocks := m.pendingBlocks.insert block
    nextOffsets := m.nextOffsets.set index (u32 (block.offset + block.length)) }

theorem getNextBlockForPiece_eq_some {m m' : PieceManager} {index : Nat} {block : Block}
    (h : m.getNextBlockForPiece index = .ok (some (block, m'))) :
    m.HandsOut index block m' := by
  unfold getNextBlockForPiece at h
  obtain ⟨len, hlen, h⟩ := bind_eq_ok.mp h
  obtain ⟨next, hnext, h⟩ := bind_eq_ok.mp h
  split at h
  · simp [pure, Except.pure] at h
  · rename_i b hgap
    obtain ⟨nextOffsets, hset, h⟩ := bind_eq_ok.mp h
    simp only [pure, Except.pure, Except.ok.injEq, Option.some.injEq, Prod.mk.injEq] at h
    obtain ⟨rfl, rfl⟩ := h
    obtain ⟨_, rfl⟩ := writeAt_eq_ok.mp hset
    exact ⟨⟨len, next, hlen, readAt_eq_ok.mp hnext, hgap⟩, rfl⟩

theorem HandsOut.key {m m' : PieceManager} {index : Nat} {block : Block}
    (h : m.HandsOut index block m') :
    block.pieceIndex = index ∧ ¬ m.pendingBlocks.Has block.key := by
  obtain ⟨len, next, _, _, hgap⟩ := h.found
  obtain ⟨k, rfl, _, hfree, _⟩ := findGap_eq_some (u32_lt len) hgap
  exact ⟨rfl, hfree⟩

/-- The block that was handed out is not behind the search, and the search is past it
afterwards. -/
theorem HandsOut.forward {m m' : PieceManager} {index : Nat} {block : Block}
    (h : m.HandsOut index block m') :
    ∃ next, m.nextOffsets[index]? = some next ∧ block.pieceIndex = index ∧
      next ≤ block.offset ∧
      m'.nextOffsets = m.nextOffsets.set index (block.offset + block.length) := by
  obtain ⟨len, next, _, hnext, hgap⟩ := h.found
  obtain ⟨k, rfl, hin, _, _⟩ := findGap_eq_some (u32_lt len) hgap
  refine ⟨next, hnext, rfl, Nat.le_add_right _ _, ?_⟩
  have hlt := u32_lt len
  rw [h.target]
  simp only
  rw [u32_of_lt (by omega)]

/-- The peer's bit of a piece is set and ours is not, in the arithmetic of
`requestBlock`. -/
def Wanted (m : PieceManager) (peerBitfield : Bytes) (i bit : Nat) : Prop :=
  ∃ mine peers, m.bitfield[i]? = some mine ∧ peerBitfield[i]? = some peers ∧
    bitSet (peers &&& ~~~mine) bit = true

/-- What a call of `requestBlock` that came back did. -/
inductive Requested (m : PieceManager) (peerBitfield : Bytes) :
    Option Block → PieceManager → Prop
  /-- nothing wanted is free -/
  | nothing : Requested m peerBitfield none m
  /-- a block of the piece with bit `bit` of byte `i` was handed out -/
  | block {i bit : Nat} {b : Block} {m' : PieceManager} :
      i < m.bitfield.length → bit < 8 → m.Wanted peerBitfield i bit →
      m.HandsOut (u32 (i * 8 + (7 - bit))) b m' → Requested m peerBitfield (some b) m'

theorem requestBlock_requested {m m' : PieceManager} {peerBitfield : Bytes} {r : Option Block}
    (h : m.requestBlock peerBitfield = .ok (r, m')) : m.Requested peerBitfield r m' := by
  unfold requestBlock at h
  obtain ⟨found, hfound, h⟩ := bind_eq_ok.mp h
  cases found with
  | none =>
    simp only [pure, Except.pure, Except.ok.injEq, Prod.mk.injEq] at h
    obtain ⟨rfl, rfl⟩ := h
    exact .nothing
  | some found =>
    obtain ⟨b, m''⟩ := found
    simp only [pure, Except.pure, Except.ok.injEq, Prod.mk.injEq] at h
    obtain ⟨rfl, rfl⟩ := h
    obtain ⟨_, i, _, hrange, _, hbyte⟩ := findSomeM?_eq_some.mp hfound
    have hi : i ∈ List.range m.bitfield.length := by rw [hrange]; simp
    obtain ⟨mine, hmine, hbyte⟩ := bind_eq_ok.mp hbyte
    obtain ⟨peers, hpeers, hbyte⟩ := bind_eq_ok.mp hbyte
    dsimp only at hbyte
    split at hbyte
    · obtain ⟨_, bit, _, hbits, _, hbit⟩ := findSomeM?_eq_some.mp hbyte
      have hmem : bit ∈ [7, 6, 5, 4, 3, 2, 1, 0] := by rw [hbits]; simp
      split at hbit
      · rename_i hset
        refine .block (List.mem_range.mp hi) ?_ ⟨mine, peers, readAt_eq_ok.mp hmine,
          readAt_eq_ok.mp hpeers, hset⟩ (getNextBlockForPiece_eq_some hbit)
        simp only [List.mem_cons, List.not_mem_nil, or_false] at hmem
        omega
      · simp [pure, Except.pure] at hbit
    · simp [pure, Except.pure] at hbyte

/-! ## Taking a block -/

/-- The mask of a piece in its byte of the bitfield. -/
def pieceMask (index : Nat) : UInt8 := 1 <<< (7 - index % 8).toUInt8

/-- The state with another output file. -/
@[simps -fullyApplied]
def withFile (m : PieceManager) (file : FileHandler) : PieceManager :=
  { m with fileHandler := file }

/-- The state after a piece was written and counted. -/
@[simps -fullyApplied]
def markFinished (m : PieceManager) (idx : Nat) : PieceManager where
  completionNotified :=
    if m.metadata.numPieces ≤ m.piecesFinished + 1 then m.completionNotified + 1
    else m.completionNotified
  progressTracker := m.progressTracker.map ProgressTracker.notifyProgress
  fileHandler := m.fileHandler
  metadata := m.metadata
  bitfield := m.bitfield.modify (idx / 8) fun byte => byte ||| pieceMask idx
  pendingPieces := Function.update m.pendingPieces idx none
  verificationHashes := m.verificationHashes
  finished := m.finished.set idx true
  piecesFinished := m.piecesFinished + 1
  pendingBlocks := m.pendingBlocks
  nextOffsets := m.nextOffsets

/-- The state after a piece was thrown away. -/
@[simps -fullyApplied]
def markDiscarded (m : PieceManager) (idx : Nat) : PieceManager where
  completionNotified := m.completionNotified
  progressTracker := m.progressTracker
  fileHandler := m.fileHandler
  metadata := m.metadata
  bitfield := m.bitfield
  pendingPieces := Function.update m.pendingPieces idx none
  verificationHashes := m.verificationHashes
  finished := m.finished
  piecesFinished := m.piecesFinished
  pendingBlocks := m.pendingBlocks
  nextOffsets := m.nextOffsets.set idx 0

theorem setPiece_eq_ok {m m' : PieceManager} {index : Nat} (h : m.setPiece index = .ok m') :
    index / 8 < m.bitfield.length ∧ m' = { m with
      bitfield := m.bitfield.modify (index / 8) fun byte => byte ||| pieceMask index } := by
  unfold setPiece at h
  obtain ⟨byte, hbyte, h⟩ := bind_eq_ok.mp h
  obtain ⟨bitfield, hbitfield, h⟩ := bind_eq_ok.mp h
  obtain ⟨hlt, rfl⟩ := writeAt_eq_ok.mp hbitfield
  refine ⟨hlt, ?_⟩
  rw [List.modify_eq_set_getElem?, readAt_eq_ok.mp hbyte]
  exact (Except.ok.inj h).symm

theorem finishPiece_eq_ok {m m' : PieceManager} {idx : Nat} (h : m.finishPiece idx = .ok m') :
    idx < m.finished.length ∧ idx / 8 < m.bitfield.length ∧ m' = m.markFinished idx := by
  unfold finishPiece at h
  obtain ⟨finished, hfinished, h⟩ := bind_eq_ok.mp h
  obtain ⟨hidx, rfl⟩ := writeAt_eq_ok.mp hfinished
  obtain ⟨m₁, hset, h⟩ := bind_eq_ok.mp h
  obtain ⟨hlt, rfl⟩ := setPiece_eq_ok hset
  refine ⟨hidx, hlt, ?_⟩
  rw [← Except.ok.inj h]
  by_cases hlast : m.metadata.numPieces ≤ m.piecesFinished + 1
  · simp [isComplete, notifyProgress, notifyOne, markFinished, hlast]
  · simp [isComplete, notifyProgress, markFinished, hlast]

theorem discardPiece_eq_ok {m m' : PieceManager} {idx : Nat} (h : m.discardPiece idx = .ok m') :
    idx < m.nextOffsets.length ∧ m' = m.markDiscarded idx := by
  unfold discardPiece at h
  obtain ⟨nextOffsets, hset, h⟩ := bind_eq_ok.mp h
  obtain ⟨hidx, rfl⟩ := writeAt_eq_ok.mp hset
  exact ⟨hidx, (Except.ok.inj h).symm⟩

/-- The block is inside an unfinished piece whose entry was `pending`. -/
structure Accepts (m : PieceManager) (idx offset : Nat) (data : Bytes)
    (pending : PendingPiece) : Prop where
  unfinished : m.finished[idx]? = some false
  opened : m.openPending idx = .ok pending
  fits : offset + data.length ≤ pending.data.length

theorem Accepts.unique {m : PieceManager} {idx offset : Nat} {data : Bytes}
    {pending pending' : PendingPiece} (h : m.Accepts idx offset data pending)
    (h' : m.Accepts idx offset data pending') : pending = pending' :=
  Except.ok.inj (h.opened.symm.trans h'.opened)

/-- The block is the last one the piece was waiting for, and the buffer has the
hash that was announced. -/
structure Verifies (sha1 : Bytes → Sha1Hash) (m : PieceManager) (idx offset : Nat)
    (data : Bytes) (pending : PendingPiece) : Prop extends m.Accepts idx offset data pending where
  complete : (pending.receive offset data).isFinished = true
  hash : m.verificationHashes[idx]? = some (sha1 (pending.receive offset data).data)

/-- The state after the block was copied and counted. -/
abbrev stored (m : PieceManager) (idx offset : Nat) (data : Bytes) (pending : PendingPiece) :
    PieceManager :=
  m.accept idx offset (pending.receive offset data)

/-- What a call of `deliverBlock` that came back did. -/
inductive Delivery (sha1 : Bytes → Sha1Hash) (m : PieceManager) (idx offset : Nat)
    (data : Bytes) (fate : DiskFate) : Reply → PieceManager → Prop
  /-- the piece was finished already -/
  | finished : m.finished[idx]? = some true → Delivery sha1 m idx offset data fate (.ok true) m
  /-- the block does not lie inside the piece -/
  | outOfBounds {pending : PendingPiece} :
      m.finished[idx]? = some false → m.openPending idx = .ok pending →
      pending.data.length < offset + data.length →
      Delivery sha1 m idx offset data fate (.ok false) (m.setPending idx (some pending))
  /-- the block was taken and the piece waits for more -/
  | stored {pending : PendingPiece} :
      m.Accepts idx offset data pending → (pending.receive offset data).isFinished = false →
      Delivery sha1 m idx offset data fate (.ok true) (m.stored idx offset data pending)
  /-- the buffer does not have the announced hash -/
  | discarded {pending : PendingPiece} {expected : Sha1Hash} :
      m.Accepts idx offset data pending → (pending.receive offset data).isFinished = true →
      m.verificationHashes[idx]? = some expected →
      expected ≠ sha1 (pending.receive offset data).data → idx < m.nextOffsets.length →
      Delivery sha1 m idx offset data fate (.ok false)
        ((m.stored idx offset data pending).markDiscarded idx)
  /-- the stream was not open -/
  | threw {pending : PendingPiece} {e : StdException} :
      m.Verifies sha1 idx offset data pending → m.fileHandler.isOpen = false →
      Delivery sha1 m idx offset data fate (.error e) (m.stored idx offset data pending)
  /-- the piece is finished -/
  | completed {pending : PendingPiece} :
      m.Verifies sha1 idx offset data pending → m.fileHandler.isOpen = true →
      idx < m.finished.length → idx / 8 < m.bitfield.length →
      Delivery sha1 m idx offset data fate (.ok true)
        (((m.stored idx offset data pending).withFile
          (m.fileHandler.store idx data fate)).markFinished idx)

theorem verifyHash_eq_ok {sha1 : Bytes → Sha1Hash} {m : PieceManager} {idx : Nat} {data : Bytes}
    {b : Bool} (h : m.verifyHash sha1 idx data = .ok b) :
    ∃ expected, m.verificationHashes[idx]? = some expected ∧
      b = decide (expected = sha1 data) := by
  unfold verifyHash at h
  obtain ⟨expected, hexpected, h⟩ := bind_eq_ok.mp h
  exact ⟨expected, readAt_eq_ok.mp hexpected, (Except.ok.inj h).symm⟩

theorem deliverBlock_delivery {sha1 : Bytes → Sha1Hash} {m m' : PieceManager}
    {idx offset : Nat} {data : Bytes} {fate : DiskFate} {r : Reply}
    (h : m.deliverBlock sha1 idx offset data fate = .ok (r, m')) :
    m.Delivery sha1 idx offset data fate r m' := by
  unfold deliverBlock at h
  obtain ⟨done, hdone, h⟩ := bind_eq_ok.mp h
  have hdone' := readAt_eq_ok.mp hdone
  cases done with
  | true =>
    obtain ⟨rfl, rfl⟩ : Except.ok true = r ∧ m = m' := by simpa [pure, Except.pure] using h
    exact .finished hdone'
  | false =>
    simp only [Bool.false_eq_true, if_false] at h
    obtain ⟨pending, hopen, h⟩ := bind_eq_ok.mp h
    split at h
    · rename_i hout
      obtain ⟨rfl, rfl⟩ : Except.ok false = r ∧ m.setPending idx (some pending) = m' := by
        simpa [pure, Except.pure] using h
      exact .outOfBounds hdone' hopen hout
    · rename_i hin
      have haccepts : m.Accepts idx offset data pending :=
        ⟨hdone', hopen, Nat.le_of_not_lt hin⟩
      split at h
      · rename_i hcomplete
        obtain ⟨verified, hverify, h⟩ := bind_eq_ok.mp h
        obtain ⟨expected, hexpected, rfl⟩ := verifyHash_eq_ok hverify
        split at h
        · rename_i heq
          have hverifies : m.Verifies sha1 idx offset data pending :=
            ⟨haccepts, hcomplete, by simpa [of_decide_eq_true heq] using hexpected⟩
          obtain ⟨⟨result, file⟩, hwrite, h⟩ := bind_eq_ok.mp h
          cases result with
          | error e =>
            obtain ⟨hclosed, rfl⟩ := FileHandler.writePiece_threw hwrite
            cases h
            exact .threw hverifies hclosed
          | ok u =>
            obtain ⟨hopened, rfl⟩ := FileHandler.writePiece_returned hwrite
            obtain ⟨m₁, hfinish, h⟩ := bind_eq_ok.mp h
            obtain ⟨hidx, hbyte, rfl⟩ := finishPiece_eq_ok hfinish
            cases h
            exact .completed hverifies hopened hidx hbyte
        · rename_i hne
          obtain ⟨m₁, hdiscard, h⟩ := bind_eq_ok.mp h
          obtain ⟨hidx, rfl⟩ := discardPiece_eq_ok hdiscard
          cases h
          exact .discarded haccepts hcomplete hexpected (by simpa using hne) hidx
      · rename_i hwaits
        cases h
        exact .stored haccepts (by simpa using hwaits)

/-! ## Returning a block -/

/-- What a call of `returnBlock` that came back did. -/
inductive Returned (m : PieceManager) (block : Block) : Bool → PieceManager → Prop
  /-- the block is not pending -/
  | unknown : ¬ m.pendingBlocks.Has block.key → Returned m block false m
  /-- the block is free again, and the search will start no later than at it -/
  | freed {next : Nat} : m.pendingBlocks.Has block.key →
      m.nextOffsets[block.pieceIndex]? = some next →
      Returned m block true { m with
        nextOffsets := m.nextOffsets.set block.pieceIndex (min next block.offset)
        pendingBlocks := m.pendingBlocks.erase block }

theorem rewind_eq_ok {m : PieceManager} {block : Block} {nextOffsets : List Nat}
    (h : m.rewind block = .ok nextOffsets) :
    ∃ next, m.nextOffsets[block.pieceIndex]? = some next ∧
      nextOffsets = m.nextOffsets.set block.pieceIndex (min next block.offset) := by
  unfold rewind at h
  obtain ⟨next, hnext, h⟩ := bind_eq_ok.mp h
  have hnext' := readAt_eq_ok.mp hnext
  refine ⟨next, hnext', ?_⟩
  split at h
  · rename_i hlt
    rw [(writeAt_eq_ok.mp h).2, Nat.min_eq_right (Nat.le_of_lt hlt)]
  · rename_i hge
    obtain ⟨hin, hget⟩ := List.getElem?_eq_some_iff.mp hnext'
    rw [Nat.min_eq_left (Nat.le_of_not_lt hge), ← hget, List.set_getElem_self]
    exact (Except.ok.inj h).symm

theorem returnBlock_returned {m m' : PieceManager} {block : Block} {r : Bool}
    (h : m.returnBlock block = .ok (r, m')) : m.Returned block r m' := by
  unfold returnBlock at h
  split at h
  · rename_i hheld
    obtain ⟨nextOffsets, hrewind, h⟩ := bind_eq_ok.mp h
    obtain ⟨next, hnext, rfl⟩ := rewind_eq_ok hrewind
    cases h
    exact .freed (KeyedSet.contains_iff.mp hheld) hnext
  · rename_i hfree
    cases h
    exact .unknown fun hheld => hfree (KeyedSet.contains_iff.mpr hheld)

/-! ## The piece manager as a machine -/

/-- A call. -/
inductive Op where
  | requestBlock (peerBitfield : Bytes)
  | deliverBlock (idx offset : Nat) (data : Bytes) (fate : DiskFate)
  | returnBlock (block : Block)
  deriving DecidableEq, Repr

/-- What a call hands back. -/
inductive Answer where
  | block (block : Option Block)
  | reply (reply : Reply)

/-- Make one call. -/
def apply (sha1 : Bytes → Sha1Hash) (m : PieceManager) : Op → Except Fault (Answer × PieceManager)
  | .requestBlock peerBitfield => do
      let (block, m') ← m.requestBlock peerBitfield
      pure (.block block, m')
  | .deliverBlock idx offset data fate => do
      let (reply, m') ← m.deliverBlock sha1 idx offset data fate
      pure (.reply reply, m')
  | .returnBlock block => do
      let (returned, m') ← m.returnBlock block
      pure (.reply (.ok returned), m')

/-- The piece manager of one torrent, from its construction on, under any calls
in any order.  A call that faults has no successor. -/
def machine (sha1 : Bytes → Sha1Hash) (metadata : TorrentMetadata) :
    Machine PieceManager (Op × Answer) where
  init m := ∃ disk tracked, m = new metadata disk tracked
  step m l m' := m.apply sha1 l.1 = .ok (l.2, m')

/-- Make calls one after another, recording the steps newest first. -/
def runOps (sha1 : Bytes → Sha1Hash) (m : PieceManager) :
    List Op → List (Transition PieceManager (Op × Answer)) →
      Except Fault (List (Transition PieceManager (Op × Answer)) × PieceManager)
  | [], history => .ok (history, m)
  | op :: rest, history => do
      let (answer, m') ← m.apply sha1 op
      runOps sha1 m' rest (⟨m, (op, answer), m'⟩ :: history)

/-- Calls made one after another are a run of every machine whose steps are calls. -/
theorem runOps_steps {M : Machine PieceManager (Op × Answer)} {sha1 : Bytes → Sha1Hash}
    (hstep : ∀ m op answer m', m.apply sha1 op = .ok (answer, m') → M.step m (op, answer) m')
    (ops : List Op) {m m' : PieceManager}
    {history history' : List (Transition PieceManager (Op × Answer))}
    (hrun : M.Run history m) (h : runOps sha1 m ops history = .ok (history', m')) :
    M.Run history' m' := by
  induction ops generalizing m history with
  | nil =>
    cases h
    exact hrun
  | cons op rest ih =>
    obtain ⟨⟨answer, m₁⟩, hcall, h⟩ := bind_eq_ok.mp h
    exact ih (hrun.snoc (hstep m op answer m₁ hcall)) h

theorem runOps_run (sha1 : Bytes → Sha1Hash) (metadata : TorrentMetadata) (ops : List Op)
    {m m' : PieceManager} {history history' : List (Transition PieceManager (Op × Answer))}
    (hrun : (machine sha1 metadata).Run history m)
    (h : runOps sha1 m ops history = .ok (history', m')) :
    (machine sha1 metadata).Run history' m' :=
  runOps_steps (fun _ _ _ _ hcall => hcall) ops hrun h

/-- Calls made from the construction on that lead to what `holds` says. -/
theorem exists_run {sha1 : Bytes → Sha1Hash} {metadata : TorrentMetadata} {ops : List Op}
    {disk : Disk} {tracked : Bool}
    {holds : List (Transition PieceManager (Op × Answer)) × PieceManager → Bool}
    (h : (runOps sha1 (new metadata disk tracked) ops []).toOption.any holds = true) :
    ∃ history m, (machine sha1 metadata).Run history m ∧ holds (history, m) = true := by
  cases hcalls : runOps sha1 (new metadata disk tracked) ops [] with
  | error fault =>
    rw [hcalls] at h
    cases h
  | ok r =>
    rw [hcalls] at h
    exact ⟨r.1, r.2, runOps_run sha1 metadata ops (.start ⟨disk, tracked, rfl⟩) hcalls, h⟩

/-- Calls made from a state on. -/
theorem runOps_startingAt (sha1 : Bytes → Sha1Hash) (metadata : TorrentMetadata) (ops : List Op)
    {m m' : PieceManager} {history : List (Transition PieceManager (Op × Answer))}
    (h : runOps sha1 m ops [] = .ok (history, m')) :
    ((machine sha1 metadata).startingAt m).Run history m' :=
  runOps_steps (fun _ _ _ _ hcall => hcall) ops (.start rfl) h

/-- A run from a new manager on is a run. -/
theorem run_of_startingAt {sha1 : Bytes → Sha1Hash} {metadata : TorrentMetadata} {m : PieceManager}
    {history : List (Transition PieceManager (Op × Answer))} {disk : Disk} {tracked : Bool}
    (hrun : ((machine sha1 metadata).startingAt (new metadata disk tracked)).Run history m) :
    (machine sha1 metadata).Run history m := by
  have hall := Machine.Run.append (M := machine sha1 metadata) (.start ⟨disk, tracked, rfl⟩) hrun
  rwa [List.append_nil] at hall

/-- The step relation, by the kind of call. -/
inductive Step (sha1 : Bytes → Sha1Hash) (m : PieceManager) :
    Op × Answer → PieceManager → Prop
  | requested {peerBitfield : Bytes} {r : Option Block} {m' : PieceManager} :
      m.Requested peerBitfield r m' → Step sha1 m (.requestBlock peerBitfield, .block r) m'
  | delivered {idx offset : Nat} {data : Bytes} {fate : DiskFate} {r : Reply}
      {m' : PieceManager} : m.Delivery sha1 idx offset data fate r m' →
      Step sha1 m (.deliverBlock idx offset data fate, .reply r) m'
  | returned {block : Block} {r : Bool} {m' : PieceManager} :
      m.Returned block r m' → Step sha1 m (.returnBlock block, .reply (.ok r)) m'

theorem machine_step {sha1 : Bytes → Sha1Hash} {metadata : TorrentMetadata}
    {m m' : PieceManager} {l : Op × Answer} (h : (machine sha1 metadata).step m l m') :
    m.Step sha1 l m' := by
  obtain ⟨op, answer⟩ := l
  change m.apply sha1 op = .ok (answer, m') at h
  cases op with
  | requestBlock peerBitfield =>
    obtain ⟨⟨r, m₁⟩, hcall, h⟩ := bind_eq_ok.mp h
    cases h
    exact .requested (requestBlock_requested hcall)
  | deliverBlock idx offset data fate =>
    obtain ⟨⟨r, m₁⟩, hcall, h⟩ := bind_eq_ok.mp h
    cases h
    exact .delivered (deliverBlock_delivery hcall)
  | returnBlock block =>
    obtain ⟨⟨r, m₁⟩, hcall, h⟩ := bind_eq_ok.mp h
    cases h
    exact .returned (returnBlock_returned hcall)

/-! ## Small torrents

Concrete runs need a hash function that computes; this one agrees with SHA1 on
the two files below and on nothing else. -/

/-- A file of the byte 7 and its digest. -/
def sevenDigest : Sha1Hash :=
  ⟨[93, 27, 231, 233, 221, 161, 238, 136, 150, 190, 91, 126,
    52, 168, 94, 225, 100, 82, 167, 180], rfl⟩

/-- A file of the bytes 0 and 7 and its digest. -/
def zeroSevenDigest : Sha1Hash :=
  ⟨[200, 214, 103, 49, 227, 155, 13, 63, 180, 126, 162, 135,
    122, 106, 216, 21, 14, 225, 69, 215], rfl⟩

/-- SHA1 on these two files. -/
def sampleSha1 (data : Bytes) : Sha1Hash :=
  if data = [7] then sevenDigest
  else if data = [0, 7] then zeroSevenDigest
  else ⟨List.replicate hashLength 0, rfl⟩

/-- A torrent of one piece. -/
def onePiece (digest : Sha1Hash) (length : Nat) : TorrentMetadata where
  announce := []
  comment := []
  creationDate := 0
  infoHash := digest
  info :=
    { pieceHashes := [digest]
      rawPieces := digest.toList
      pieceLength := length
      fileLength := length
      fileName := [] }

/-- A torrent of two pieces, cut from the bytes 0, 7 and 7. -/
def zeroSevenSeven : TorrentMetadata where
  announce := []
  comment := []
  creationDate := 0
  infoHash := zeroSevenDigest
  info :=
    { pieceHashes := [zeroSevenDigest, sevenDigest]
      rawPieces := zeroSevenDigest.toList ++ sevenDigest.toList
      pieceLength := 2
      fileLength := 3
      fileName := [] }

/-- The two pieces. -/
def zeroSevenPieces (p : Nat) : Bytes := if p = 0 then [0, 7] else [7]

/-- An empty output file that can be written. -/
def emptyFile : Disk := ⟨some [], true⟩

end PieceManager

end BitTorrentClient
