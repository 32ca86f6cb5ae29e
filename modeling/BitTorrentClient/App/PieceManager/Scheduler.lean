/-
  App/PieceManager/Scheduler.lean --- no block of an unfinished piece is lost.

  A block is free (the search of its piece starts at or before it), pending, or
  received; received blocks are recorded nowhere, only counted.  The history of
  the run supplies the missing set: `acceptedSince` lists the offsets accepted
  since the entry of a piece was created.  The invariant `Scheduled` says that
  the three kinds cover the piece and that the counter is the length of that
  list, and the counting argument follows.
-/
import BitTorrentClient.App.PieceManager.Totality
import Mathlib.Data.Finset.Card
import Mathlib.Data.List.Dedup

set_option autoImplicit false

namespace BitTorrentClient

open Library

namespace PieceManager

variable {sha1 : Bytes → Sha1Hash} {metadata : TorrentMetadata} {m m' : PieceManager}

/-! ## Alignment

Offsets move in steps of a full block, and the only offset that is not a multiple
of one is the end of a piece. -/

/-- Searches start at block boundaries or at the end of the piece, and pending
blocks lie at block boundaries. -/
structure Aligned (metadata : TorrentMetadata) (m : PieceManager) : Prop where
  next : ∀ p next len, m.nextOffsets[p]? = some next →
    metadata.info.getPieceLength p = .ok len → blockLen ∣ next ∨ len ≤ next
  pending : ∀ p o, m.pendingBlocks.Has (blockKey p o) → blockLen ∣ o

/-- The block that was handed out, in terms of the blocks of its piece: it is the
first block from the start of the search on that is not pending. -/
structure HandsOutBlock (metadata : TorrentMetadata) (m : PieceManager) (index k len next : Nat)
    (block : Block) (m' : PieceManager) : Prop where
  length : metadata.info.getPieceLength index = .ok len
  start : m.nextOffsets[index]? = some next
  shape : block = ⟨index, k * blockLen, min blockLen (len - k * blockLen)⟩
  inside : k * blockLen < len
  after : next ≤ k * blockLen
  free : ¬ m.pendingBlocks.Has (blockKey index (k * blockLen))
  passed : ∀ j < k, next ≤ j * blockLen → m.pendingBlocks.Has (blockKey index (j * blockLen))
  target : m' = { m with
    pendingBlocks := m.pendingBlocks.insert block
    nextOffsets := m.nextOffsets.set index
      (k * blockLen + min blockLen (len - k * blockLen)) }

theorem HandsOut.block (hs : Shaped metadata m) (ha : Aligned metadata m) {index : Nat}
    {b : Block} (h : m.HandsOut index b m') :
    ∃ k len next, HandsOutBlock metadata m index k len next b m' := by
  obtain ⟨len, next, hlen, hnext, hgap⟩ := h.found
  have hlen' : metadata.info.getPieceLength index = .ok len := by
    rw [← hs.metadata_eq]; exact hlen
  have hlt : len < 2 ^ 32 := (TorrentMetadata.Info.getPieceLength_le hlen').2
  rw [u32_of_lt hlt] at hgap
  obtain ⟨turns, rfl, hin, hfree, hpassed⟩ := findGap_eq_some hlt hgap
  -- the search started inside the piece, so at a block boundary
  obtain ⟨start, rfl⟩ : blockLen ∣ next := by
    rcases ha.next index next len hnext hlen' with hdvd | hend
    · exact hdvd
    · omega
  have hoffset : ∀ j, blockLen * start + j * blockLen = (start + j) * blockLen := by
    intro j
    rw [Nat.add_mul, Nat.mul_comm start]
  rw [hoffset] at hin
  refine ⟨start + turns, len, blockLen * start, hlen', hnext, ?_, hin, ?_, ?_, ?_, ?_⟩
  · rw [hoffset]
  · rw [← hoffset]
    omega
  · rw [← hoffset]
    exact hfree
  · intro j hj hstart
    have hle : start ≤ j := by
      rw [Nat.mul_comm] at hstart
      exact Nat.le_of_mul_le_mul_right hstart (by decide)
    have := hpassed (j - start) (by omega)
    rwa [hoffset, Nat.add_sub_cancel' hle] at this
  · rw [h.target]
    have hend : (start + turns) * blockLen + min blockLen (len - (start + turns) * blockLen)
        < 2 ^ 32 := by omega
    simp only [hoffset, u32_of_lt hend]

theorem aligned_new (disk : Disk) (tracked : Bool) :
    Aligned metadata (new metadata disk tracked) where
  next := by
    intro p next len h _
    have : next = 0 := by
      simp only [new, List.getElem?_replicate] at h
      split at h
      · exact (Option.some.inj h).symm
      · simp at h
    exact Or.inl (this ▸ Nat.dvd_zero _)
  pending := by simp [new]

/-- Moving the search of one piece to a good place keeps the alignment. -/
theorem Aligned.set_next (h : Aligned metadata m) {index new : Nat} {pending : BlockSet}
    (hnew : ∀ len, metadata.info.getPieceLength index = .ok len → blockLen ∣ new ∨ len ≤ new)
    (hpending : ∀ p o, pending.Has (blockKey p o) → blockLen ∣ o) :
    Aligned metadata { m with
      nextOffsets := m.nextOffsets.set index new, pendingBlocks := pending } where
  next := by
    intro p next len hp hlen
    rw [List.getElem?_set] at hp
    split at hp
    · rename_i heq
      subst heq
      split at hp
      · exact Option.some.inj hp ▸ hnew len hlen
      · simp at hp
    · exact h.next p next len hp hlen
  pending := hpending

theorem Aligned.handsOut (h : Aligned metadata m) {index k len next : Nat} {block : Block}
    (hout : HandsOutBlock metadata m index k len next block m') : Aligned metadata m' := by
  rw [hout.target]
  refine h.set_next ?_ ?_
  · intro len' hlen'
    obtain rfl : len = len' := Except.ok.inj (hout.length.symm.trans hlen')
    by_cases hfull : blockLen ≤ len - k * blockLen
    · rw [Nat.min_eq_left hfull]
      exact Or.inl (Nat.dvd_add (Nat.dvd_mul_left _ _) (Nat.dvd_refl _))
    · rw [Nat.min_eq_right (by omega)]
      exact Or.inr (by omega)
  · intro p o hp
    rcases KeyedSet.has_insert.mp hp with hp | hp
    · exact h.pending p o hp
    · rw [hout.shape] at hp
      rw [(blockKey_inj.mp hp).2]
      exact Nat.dvd_mul_left _ _

theorem Aligned.delivery (h : Aligned metadata m) {idx offset : Nat} {data : Bytes}
    {fate : DiskFate} {r : Reply} (hd : m.Delivery sha1 idx offset data fate r m') :
    Aligned metadata m' := by
  have hstored : ∀ pending, Aligned metadata (m.stored idx offset data pending) :=
    fun pending => ⟨h.next, fun p o hp => h.pending p o (KeyedSet.has_erase.mp hp).1⟩
  cases hd with
  | finished _ => exact h
  | outOfBounds _ _ _ => exact { h with }
  | stored _ _ => exact hstored _
  | @discarded pending _ _ _ _ _ =>
    have hset : Aligned metadata { m.stored idx offset data pending with
        nextOffsets := (m.stored idx offset data pending).nextOffsets.set idx 0
        pendingBlocks := (m.stored idx offset data pending).pendingBlocks } :=
      (hstored pending).set_next (fun _ _ => Or.inl (Nat.dvd_zero _)) (hstored pending).pending
    exact { hset with }
  | threw _ _ => exact hstored _
  | @completed pending _ _ _ _ => exact { hstored pending with }

theorem Aligned.step (h : Aligned metadata m) (hs : Shaped metadata m) {l : Op × Answer}
    (hstep : m.Step sha1 l m') : Aligned metadata m' := by
  cases hstep with
  | requested hr =>
    cases hr with
    | nothing => exact h
    | block _ _ _ hout =>
      obtain ⟨k, len, next, hblock⟩ := hout.block hs h
      exact h.handsOut hblock
  | delivered hd => exact h.delivery hd
  | @returned block r m' hr =>
    cases hr with
    | unknown _ => exact h
    | @freed next hheld hnext =>
      refine h.set_next ?_ fun p o hp => h.pending p o (KeyedSet.has_erase.mp hp).1
      intro len hlen
      rcases min_choice next block.offset with heq | heq
      · rw [heq]
        exact h.next _ _ len hnext hlen
      · rw [heq]
        exact Or.inl (h.pending _ _ hheld)

/-- Every reachable state is aligned. -/
theorem aligned_of_run {history : List (Transition PieceManager (Op × Answer))}
    (hrun : (machine sha1 metadata).Run history m) : Aligned metadata m := by
  have hboth : Shaped metadata m ∧ Aligned metadata m := by
    refine hrun.invariant (I := fun s => Shaped metadata s ∧ Aligned metadata s) ?_
      fun s l s' hI hs => ⟨hI.1.step (machine_step hs), hI.2.step hI.1 (machine_step hs)⟩
    rintro s ⟨disk, tracked, rfl⟩
    exact ⟨shaped_new disk tracked, aligned_new disk tracked⟩
  exact hboth.2

/-! ## Pieces wait for more -/

/-- Every entry still waits for a block. -/
def Waiting (m : PieceManager) : Prop :=
  ∀ p entry, m.pendingPieces p = some entry → entry.blocksReceived < entry.totalBlocksNeeded

/-- The entry a delivery opens waits for a block too: no piece is empty. -/
theorem Waiting.openPending (h : Waiting m) (hs : Shaped metadata m)
    (h1 : 1 ≤ metadata.info.pieceLength) (h2 : metadata.info.pieceLength < 2 ^ 32) {idx : Nat}
    {pending : PendingPiece} {done : Bool} (hidx : m.finished[idx]? = some done)
    (hopen : m.openPending idx = .ok pending) :
    pending.blocksReceived < pending.totalBlocksNeeded := by
  obtain ⟨hentry, hstored | ⟨_, hzero⟩⟩ := hs.openPending hidx hopen
  · exact h idx pending hstored
  · obtain ⟨len, hlen, hpos⟩ := TorrentMetadata.Info.getPieceLength_pos h1 h2 idx
    obtain rfl : len = pending.data.length := Except.ok.inj (hlen.symm.trans hentry.length)
    rw [hzero, hentry.total]
    exact totalBlocks_pos hpos

theorem Waiting.setPending (h : Waiting m) {idx : Nat} {entry : Option PendingPiece}
    (hentry : ∀ pending, entry = some pending →
      pending.blocksReceived < pending.totalBlocksNeeded) : Waiting (m.setPending idx entry) := by
  intro p pending hp
  by_cases heq : p = idx
  · subst heq
    exact hentry pending (by simpa using hp)
  · exact h p pending (by simpa [heq] using hp)

theorem Waiting.delivery (h : Waiting m) (hs : Shaped metadata m)
    (h1 : 1 ≤ metadata.info.pieceLength) (h2 : metadata.info.pieceLength < 2 ^ 32)
    {idx offset : Nat} {data : Bytes} {fate : DiskFate} {r : Reply}
    (hd : m.Delivery sha1 idx offset data fate r m') (hquiet : ∀ e, r ≠ .error e) :
    Waiting m' := by
  cases hd with
  | finished _ => exact h
  | outOfBounds hidx hopen _ =>
    exact h.setPending fun p hp => Option.some.inj hp ▸ h.openPending hs h1 h2 hidx hopen
  | @stored pending ha hwaits =>
    have hless := h.openPending hs h1 h2 ha.unfinished ha.opened
    have hmore : pending.blocksReceived + 1 ≠ pending.totalBlocksNeeded := by
      simpa [PendingPiece.isFinished, PendingPiece.receive] using hwaits
    refine h.setPending fun p hp => ?_
    cases hp
    simp only [PendingPiece.receive]
    omega
  | discarded _ _ _ _ _ =>
    intro p pending hp
    by_cases heq : p = idx
    · simp [heq] at hp
    · exact h p pending (by simpa [heq] using hp)
  | threw _ _ => exact absurd rfl (hquiet _)
  | completed _ _ _ _ =>
    intro p pending hp
    by_cases heq : p = idx
    · simp [heq] at hp
    · exact h p pending (by simpa [heq] using hp)

/-! ## The accepted offsets -/

/-- The offsets of the deliveries to the piece `p` that were accepted since its
entry was created, latest first. -/
def acceptedSince (p : Nat) : List (Transition PieceManager (Op × Answer)) → List Nat
  | [] => []
  | t :: older =>
      if (t.target.pendingPieces p).isNone then []
      else
        match t.label with
        | (.deliverBlock idx offset _ _, .reply (.ok true)) =>
            if idx = p ∧ t.source.finished[p]? = some false then
              offset :: acceptedSince p older
            else acceptedSince p older
        | _ => acceptedSince p older

/-- How many blocks of the piece the manager has counted; none without an entry. -/
def received (m : PieceManager) (p : Nat) : Nat :=
  match m.pendingPieces p with
  | some entry => entry.blocksReceived
  | none => 0

/-- The block `k` of the piece `p` can still be requested. -/
def Free (m : PieceManager) (p k : Nat) : Prop :=
  ∃ next, m.nextOffsets[p]? = some next ∧ next ≤ k * blockLen

/-- The block `k` of the piece `p` is pending. -/
def Pending (m : PieceManager) (p k : Nat) : Prop :=
  m.pendingBlocks.Has (blockKey p (k * blockLen))

/-- Every block of the piece `p`, while it is unfinished, is accounted for, and its
counter counts the accepted deliveries. -/
structure Accounted (metadata : TorrentMetadata)
    (history : List (Transition PieceManager (Op × Answer))) (m : PieceManager) (p : Nat) :
    Prop where
  counted : (acceptedSince p history).length = received m p
  covered : ∀ len k, m.finished[p]? = some false →
    metadata.info.getPieceLength p = .ok len → k * blockLen < len →
      Free m p k ∨ Pending m p k ∨ k * blockLen ∈ acceptedSince p history

variable {history : List (Transition PieceManager (Op × Answer))}

theorem acceptedSince_cons (p : Nat) (t : Transition PieceManager (Op × Answer)) :
    acceptedSince p (t :: history) =
      if (t.target.pendingPieces p).isNone then []
      else
        match t.label with
        | (.deliverBlock idx offset _ _, .reply (.ok true)) =>
            if idx = p ∧ t.source.finished[p]? = some false then
              offset :: acceptedSince p history
            else acceptedSince p history
        | _ => acceptedSince p history := rfl

/-- Without an entry nothing is accepted. -/
theorem acceptedSince_of_none {l : Op × Answer} {p : Nat} (hnone : m'.pendingPieces p = none) :
    acceptedSince p (⟨m, l, m'⟩ :: history) = [] := by
  rw [acceptedSince_cons, hnone]
  simp only [Option.isNone_none, if_true]

/-- A step that accepts no block of `p` and leaves it with an entry adds nothing to
the accepted offsets of `p`. -/
theorem acceptedSince_of_some {l : Op × Answer} {p : Nat} {entry : PendingPiece}
    (hentry : m'.pendingPieces p = some entry)
    (hother : ∀ offset data fate, l = (.deliverBlock p offset data fate, .reply (.ok true)) →
      m.finished[p]? ≠ some false) :
    acceptedSince p (⟨m, l, m'⟩ :: history) = acceptedSince p history := by
  rw [acceptedSince_cons, hentry]
  simp only [Option.isNone_some, Bool.false_eq_true, if_false]
  split
  · rw [if_neg]
    rintro ⟨rfl, hunfinished⟩
    exact hother _ _ _ rfl hunfinished
  · rfl

namespace Accounted

/-- A step that accepts no block of `p` and does not change its entry adds nothing
either. -/
theorem same {l : Op × Answer} {p : Nat} (h : Accounted metadata history m p)
    (hentry : m'.pendingPieces p = m.pendingPieces p)
    (hother : ∀ offset data fate, l = (.deliverBlock p offset data fate, .reply (.ok true)) →
      m.finished[p]? ≠ some false) :
    acceptedSince p (⟨m, l, m'⟩ :: history) = acceptedSince p history := by
  cases hold : m.pendingPieces p with
  | none =>
    have hcount := h.counted
    rw [received, hold] at hcount
    rw [acceptedSince_of_none (hentry.trans hold), List.length_eq_zero_iff.mp hcount]
  | some entry => exact acceptedSince_of_some (hentry.trans hold) hother

/-- Such a step keeps the account of `p` as long as free and pending blocks stay
free or pending. -/
theorem moved {l : Op × Answer} {p : Nat} (h : Accounted metadata history m p)
    (hentry : m'.pendingPieces p = m.pendingPieces p)
    (hother : ∀ offset data fate, l = (.deliverBlock p offset data fate, .reply (.ok true)) →
      m.finished[p]? ≠ some false)
    (hfinished : m'.finished[p]? = m.finished[p]?)
    (hmoved : ∀ len k, metadata.info.getPieceLength p = .ok len → k * blockLen < len →
      Free m p k ∨ Pending m p k → Free m' p k ∨ Pending m' p k) :
    Accounted metadata (⟨m, l, m'⟩ :: history) m' p where
  counted := by
    rw [h.same hentry hother, h.counted, received, received, hentry]
  covered := by
    intro len k hunfinished hlen hin
    rw [h.same hentry hother]
    rw [hfinished] at hunfinished
    rcases h.covered len k hunfinished hlen hin with hfree | hpending | haccepted
    · rcases hmoved len k hlen hin (Or.inl hfree) with hfree | hpending
      · exact Or.inl hfree
      · exact Or.inr (Or.inl hpending)
    · rcases hmoved len k hlen hin (Or.inr hpending) with hfree | hpending
      · exact Or.inl hfree
      · exact Or.inr (Or.inl hpending)
    · exact Or.inr (Or.inr haccepted)

/-- A delivery to another piece keeps the account of `p`. -/
theorem other {idx p : Nat} (h : Accounted metadata history m p) (hne : p ≠ idx)
    {offset : Nat} {data : Bytes} {fate : DiskFate} {answer : Answer}
    (hentry : m'.pendingPieces p = m.pendingPieces p)
    (hfinished : m'.finished[p]? = m.finished[p]?)
    (hnext : m'.nextOffsets[p]? = m.nextOffsets[p]?)
    (hpending : ∀ o, m.pendingBlocks.Has (blockKey p o) → m'.pendingBlocks.Has (blockKey p o)) :
    Accounted metadata (⟨m, (.deliverBlock idx offset data fate, answer), m'⟩ :: history) m' p := by
  refine h.moved hentry ?_ hfinished ?_
  · intro offset' data' fate' hlabel
    injection hlabel with hop _
    injection hop with hidx _ _ _
    exact absurd hidx.symm hne
  · intro len k _ _ hk
    rcases hk with ⟨next, hget, hle⟩ | hheld
    · exact Or.inl ⟨next, hnext.trans hget, hle⟩
    · exact Or.inr (hpending _ hheld)

/-- Handing a block out: the blocks the search passed are pending, the block
itself is pending now, and the blocks behind it are still free. -/
theorem handsOut {p index k len next : Nat} {block : Block} {l : Op × Answer}
    (h : Accounted metadata history m p)
    (hout : HandsOutBlock metadata m index k len next block m')
    (hrequest : ∃ peerBitfield, l.1 = .requestBlock peerBitfield) :
    Accounted metadata (⟨m, l, m'⟩ :: history) m' p := by
  obtain ⟨peerBitfield, hrequest⟩ := hrequest
  have hkeeps : ∀ j, Pending m p j → Pending m' p j := by
    intro j hj
    rw [Pending, hout.target]
    exact KeyedSet.has_insert.mpr (Or.inl hj)
  refine h.moved (by rw [hout.target]) ?_ (by rw [hout.target]) ?_
  · rintro offset data fate rfl
    simp at hrequest
  · intro len' j hlen hj hcases
    rcases hcases with ⟨start, hget, hle⟩ | hheld
    · by_cases hp : p = index
      · subst hp
        obtain rfl : len = len' := Except.ok.inj (hout.length.symm.trans hlen)
        obtain rfl : next = start := Option.some.inj (hout.start.symm.trans hget)
        rcases Nat.lt_trichotomy j k with hlt | rfl | hgt
        · exact Or.inr (hkeeps j (hout.passed j hlt hle))
        · refine Or.inr ?_
          rw [Pending, hout.target, hout.shape]
          exact KeyedSet.has_insert.mpr (Or.inr rfl)
        · have hin : p < m.nextOffsets.length := (List.getElem?_eq_some_iff.mp hget).1
          have hstep : (k + 1) * blockLen ≤ j * blockLen := Nat.mul_le_mul_right _ hgt
          refine Or.inl ⟨k * blockLen + min blockLen (len - k * blockLen), ?_, ?_⟩
          · rw [hout.target]
            simp only [List.getElem?_set_self hin]
          · rw [Nat.succ_mul] at hstep
            omega
      · refine Or.inl ⟨start, ?_, hle⟩
        rw [hout.target]
        simpa only [List.getElem?_set_ne (Ne.symm hp)] using hget
    · exact Or.inr (hkeeps j hheld)

/-- Taking a block back: it is free afterwards, and no search starts later. -/
theorem freed {p next : Nat} {block : Block} {r : Bool} (h : Accounted metadata history m p)
    (hnext : m.nextOffsets[block.pieceIndex]? = some next) :
    Accounted metadata
      (⟨m, (.returnBlock block, .reply (.ok r)), { m with
        nextOffsets := m.nextOffsets.set block.pieceIndex (min next block.offset)
        pendingBlocks := m.pendingBlocks.erase block }⟩ :: history)
      { m with
        nextOffsets := m.nextOffsets.set block.pieceIndex (min next block.offset)
        pendingBlocks := m.pendingBlocks.erase block } p := by
  obtain ⟨hin, _⟩ := List.getElem?_eq_some_iff.mp hnext
  refine h.moved rfl (by simp) rfl ?_
  rintro len j _ _ (⟨start, hget, hle⟩ | hheld)
  · refine Or.inl ?_
    by_cases hp : p = block.pieceIndex
    · subst hp
      obtain rfl : next = start := Option.some.inj (hnext.symm.trans hget)
      exact ⟨min next block.offset, List.getElem?_set_self hin, by omega⟩
    · exact ⟨start, by rwa [List.getElem?_set_ne (Ne.symm hp)], hle⟩
  · by_cases hkey : blockKey p (j * blockLen) = block.key
    · obtain ⟨rfl, hoffset⟩ := blockKey_inj.mp hkey
      exact Or.inl ⟨min next block.offset, List.getElem?_set_self hin, by omega⟩
    · exact Or.inr (KeyedSet.has_erase.mpr ⟨hheld, hkey⟩)

/-- The entry a delivery works on has the count of the manager. -/
theorem opened {idx : Nat} {pending : PendingPiece} {done : Bool} (hs : Shaped metadata m)
    (hidx : m.finished[idx]? = some done) (hopen : m.openPending idx = .ok pending) :
    pending.blocksReceived = received m idx := by
  obtain ⟨_, hstored | ⟨hnone, hzero⟩⟩ := hs.openPending hidx hopen
  · rw [received, hstored]
  · rw [received, hnone, hzero]

/-- Erasing a block of another piece keeps the pending blocks of `p`. -/
theorem keeps_other {p idx : Nat} (hne : p ≠ idx) {offset : Nat} {data : Bytes}
    {pending : PendingPiece} {o : Nat} (hheld : m.pendingBlocks.Has (blockKey p o)) :
    (m.stored idx offset data pending).pendingBlocks.Has (blockKey p o) := by
  refine KeyedSet.has_erase.mpr ⟨hheld, fun hkey => hne (blockKey_inj.mp hkey).1⟩

/-- A delivery to another piece. -/
theorem delivery_other {idx offset : Nat} {data : Bytes} {fate : DiskFate} {r : Reply} {p : Nat}
    (h : Accounted metadata history m p) (hne : p ≠ idx)
    (hd : m.Delivery sha1 idx offset data fate r m') :
    Accounted metadata (⟨m, (.deliverBlock idx offset data fate, .reply r), m'⟩ :: history)
      m' p := by
  cases hd with
  | finished _ => exact h.other hne rfl rfl rfl fun _ ho => ho
  | outOfBounds _ _ _ => exact h.other hne (by simp [hne]) rfl rfl fun _ ho => ho
  | stored _ _ => exact h.other hne (by simp [hne]) rfl rfl fun _ ho => keeps_other hne ho
  | discarded _ _ _ _ _ =>
    exact h.other hne (by simp [hne]) rfl (by simp [Ne.symm hne]) fun _ ho => keeps_other hne ho
  | threw _ _ => exact h.other hne (by simp [hne]) rfl rfl fun _ ho => keeps_other hne ho
  | completed _ _ _ _ =>
    exact h.other hne (by simp [hne]) (by simp [Ne.symm hne]) rfl fun _ ho => keeps_other hne ho

/-- A block that is accepted is recorded, and no other block of its piece is lost. -/
theorem stored {p offset : Nat} {data : Bytes} {fate : DiskFate} {pending : PendingPiece}
    (h : Accounted metadata history m p) (hs : Shaped metadata m)
    (ha : m.Accepts p offset data pending) :
    Accounted metadata (⟨m, (.deliverBlock p offset data fate, .reply (.ok true)),
      m.stored p offset data pending⟩ :: history) (m.stored p offset data pending) p := by
  have hcons : acceptedSince p (⟨m, (.deliverBlock p offset data fate, .reply (.ok true)),
      m.stored p offset data pending⟩ :: history) = offset :: acceptedSince p history := by
    rw [acceptedSince_cons]
    simp [ha.unfinished]
  refine ⟨?_, ?_⟩
  · rw [hcons, List.length_cons, h.counted, ← opened hs ha.unfinished ha.opened]
    simp [received, PendingPiece.receive]
  · intro len k hunfinished hlen hin
    rw [hcons]
    rcases h.covered len k hunfinished hlen hin with hfree | hpending | haccepted
    · exact Or.inl hfree
    · by_cases hoffset : k * blockLen = offset
      · exact Or.inr (Or.inr (hoffset ▸ List.mem_cons_self))
      · refine Or.inr (Or.inl (KeyedSet.has_erase.mpr ⟨hpending, ?_⟩))
        exact fun hkey => hoffset (blockKey_inj.mp hkey).2
    · exact Or.inr (Or.inr (List.mem_cons_of_mem _ haccepted))

/-- A delivery to the piece itself: an accepted block is recorded, and a piece that is
thrown away is free from its start on. -/
theorem delivery_self {p offset : Nat} {data : Bytes} {fate : DiskFate} {r : Reply}
    (h : Accounted metadata history m p) (hs : Shaped metadata m)
    (hd : m.Delivery sha1 p offset data fate r m') (hquiet : ∀ e, r ≠ .error e) :
    Accounted metadata (⟨m, (.deliverBlock p offset data fate, .reply r), m'⟩ :: history)
      m' p := by
  cases hd with
  | finished hdone => exact h.moved rfl (by simp [hdone]) rfl fun _ _ _ _ hk => hk
  | @outOfBounds pending hidx hopen hout =>
    have hentry : (m.setPending p (some pending)).pendingPieces p = some pending := by simp
    have hsame : acceptedSince p (⟨m, (.deliverBlock p offset data fate, .reply (.ok false)),
        m.setPending p (some pending)⟩ :: history) = acceptedSince p history :=
      acceptedSince_of_some hentry (by simp)
    refine ⟨?_, ?_⟩
    · rw [hsame, h.counted, ← opened hs hidx hopen]
      simp [received]
    · rw [hsame]
      exact h.covered
  | stored ha _ => exact h.stored hs ha
  | @discarded pending _ _ _ _ _ hlt =>
    have hnone : ((m.stored p offset data pending).markDiscarded p).pendingPieces p = none := by
      simp
    refine ⟨?_, ?_⟩
    · rw [acceptedSince_of_none hnone, received, hnone, List.length_nil]
    · intro len k _ _ _
      exact Or.inl ⟨0, List.getElem?_set_self hlt, Nat.zero_le _⟩
  | threw _ _ => exact absurd rfl (hquiet _)
  | completed _ _ hlt _ =>
    refine ⟨?_, ?_⟩
    · rw [acceptedSince_of_none (by simp), received]
      simp
    · intro len k hunfinished
      simp [hlt] at hunfinished

theorem delivery {idx offset : Nat} {data : Bytes} {fate : DiskFate} {r : Reply} {p : Nat}
    (h : Accounted metadata history m p) (hs : Shaped metadata m)
    (hd : m.Delivery sha1 idx offset data fate r m') (hquiet : ∀ e, r ≠ .error e) :
    Accounted metadata (⟨m, (.deliverBlock idx offset data fate, .reply r), m'⟩ :: history)
      m' p := by
  by_cases hp : p = idx
  · subst hp
    exact h.delivery_self hs hd hquiet
  · exact h.delivery_other hp hd

end Accounted

/-! ## Runs -/

/-- What holds after every run in which no write of a piece threw. -/
structure Scheduled (metadata : TorrentMetadata)
    (history : List (Transition PieceManager (Op × Answer))) (m : PieceManager) : Prop where
  shaped : Shaped metadata m
  aligned : Aligned metadata m
  waiting : Waiting m
  accounted : ∀ p, Accounted metadata history m p

theorem scheduled_new (disk : Disk) (tracked : Bool) :
    Scheduled metadata [] (new metadata disk tracked) where
  shaped := shaped_new disk tracked
  aligned := aligned_new disk tracked
  waiting := by simp [Waiting, new]
  accounted := by
    intro p
    refine ⟨rfl, fun len k hunfinished _ _ => Or.inl ⟨0, ?_, Nat.zero_le _⟩⟩
    simpa [new, List.getElem?_replicate] using hunfinished

theorem Scheduled.step (h : Scheduled metadata history m)
    (h1 : 1 ≤ metadata.info.pieceLength) (h2 : metadata.info.pieceLength < 2 ^ 32)
    {l : Op × Answer} (hstep : m.Step sha1 l m') (hquiet : ∀ e, l.2 ≠ .reply (.error e)) :
    Scheduled metadata (⟨m, l, m'⟩ :: history) m' := by
  refine ⟨h.shaped.step hstep, h.aligned.step h.shaped hstep, ?_, fun p => ?_⟩
  · cases hstep with
    | requested hr =>
      cases hr with
      | nothing => exact h.waiting
      | block _ _ _ hout =>
        rw [hout.target]
        exact h.waiting
    | delivered hd =>
      exact h.waiting.delivery h.shaped h1 h2 hd fun e he => hquiet e (by rw [he])
    | returned hr =>
      cases hr with
      | unknown _ => exact h.waiting
      | freed _ _ => exact h.waiting
  · have hp := h.accounted p
    cases hstep with
    | requested hr =>
      cases hr with
      | nothing => exact hp.moved rfl (by simp) rfl fun _ _ _ _ hk => hk
      | block _ _ _ hout =>
        obtain ⟨k, len, next, hblock⟩ := hout.block h.shaped h.aligned
        exact hp.handsOut hblock ⟨_, rfl⟩
    | delivered hd => exact hp.delivery h.shaped hd fun e he => hquiet e (by rw [he])
    | returned hr =>
      cases hr with
      | unknown _ => exact hp.moved rfl (by simp) rfl fun _ _ _ _ hk => hk
      | freed _ hnext => exact hp.freed hnext

/-- Every run whose writes did not throw keeps the schedule. -/
theorem scheduled_of_run (h1 : 1 ≤ metadata.info.pieceLength)
    (h2 : metadata.info.pieceLength < 2 ^ 32)
    (hrun : (machine sha1 metadata).Run history m)
    (hquiet : ∀ t ∈ history, ∀ e, t.label.2 ≠ .reply (.error e)) :
    Scheduled metadata history m := by
  induction hrun with
  | start hinit =>
    obtain ⟨disk, tracked, rfl⟩ := hinit
    exact scheduled_new disk tracked
  | snoc _ hlast ih =>
    exact (ih fun t ht => hquiet t (List.mem_cons_of_mem _ ht)).step h1 h2 (machine_step hlast)
      (hquiet _ List.mem_cons_self)

/-! ## The counting argument -/

/-- Blocks that are neither free nor pending were accepted, and no two of them by
one delivery: there are at most as many as the manager counted. -/
theorem Scheduled.card_lost_le (h : Scheduled metadata history m) {p len : Nat}
    (hunfinished : m.finished[p]? = some false)
    (hlen : metadata.info.getPieceLength p = .ok len) (lost : Finset Nat)
    (hlost : ∀ k ∈ lost, k * blockLen < len ∧ ¬ Free m p k ∧ ¬ Pending m p k) :
    lost.card ≤ received m p := by
  have hinjective : Function.Injective fun k => k * blockLen :=
    fun a b hab => Nat.eq_of_mul_eq_mul_right (by decide) hab
  have hsub : lost.image (fun k => k * blockLen) ⊆ (acceptedSince p history).toFinset := by
    intro o ho
    obtain ⟨k, hk, rfl⟩ := Finset.mem_image.mp ho
    obtain ⟨hin, hfree, hpending⟩ := hlost k hk
    rcases (h.accounted p).covered len k hunfinished hlen hin with hf | hp | haccepted
    · exact absurd hf hfree
    · exact absurd hp hpending
    · exact List.mem_toFinset.mpr haccepted
  calc lost.card = (lost.image fun k => k * blockLen).card :=
        (Finset.card_image_of_injective lost hinjective).symm
    _ ≤ (acceptedSince p history).toFinset.card := Finset.card_le_card hsub
    _ ≤ (acceptedSince p history).length := List.toFinset_card_le _
    _ = received m p := (h.accounted p).counted

/-- The entry of a piece waits for one of its blocks, so some block is left over. -/
theorem Scheduled.exists_left (h : Scheduled metadata history m)
    (h1 : 1 ≤ metadata.info.pieceLength) (h2 : metadata.info.pieceLength < 2 ^ 32) {p len : Nat}
    (hunfinished : m.finished[p]? = some false)
    (hlen : metadata.info.getPieceLength p = .ok len) :
    ∃ k, k * blockLen < len ∧ (Free m p k ∨ Pending m p k) := by
  by_contra hnone
  have hless : received m p < totalBlocks len := by
    cases hentry : m.pendingPieces p with
    | none =>
      obtain ⟨len', hlen', hpos⟩ := TorrentMetadata.Info.getPieceLength_pos h1 h2 p
      obtain rfl : len = len' := Except.ok.inj (hlen.symm.trans hlen')
      simpa [received, hentry] using totalBlocks_pos hpos
    | some entry =>
      have hof := h.shaped.entries p entry hentry
      obtain rfl : len = entry.data.length := Except.ok.inj (hlen.symm.trans hof.length)
      have := h.waiting p entry hentry
      rwa [hof.total, ← show received m p = entry.blocksReceived by rw [received, hentry]] at this
  have hall := h.card_lost_le hunfinished hlen (Finset.range (totalBlocks len)) ?_
  · rw [Finset.card_range] at hall
    omega
  · intro k hk
    have hin := lt_totalBlocks_iff.mp (Finset.mem_range.mp hk)
    exact ⟨hin, fun hf => hnone ⟨k, hin, Or.inl hf⟩, fun hp => hnone ⟨k, hin, Or.inr hp⟩⟩

/-- No block of an unfinished piece is lost by the scheduler: as long as no write of
a piece throws, the entry of the piece waits for a block, every block is free,
pending or accepted, at most as many as were counted are accepted only, and some
block is free or pending. -/
theorem no_block_lost (h1 : 1 ≤ metadata.info.pieceLength)
    (h2 : metadata.info.pieceLength < 2 ^ 32)
    (hrun : (machine sha1 metadata).Run history m)
    (hquiet : ∀ t ∈ history, ∀ e, t.label.2 ≠ .reply (.error e)) (p : Nat)
    (hunfinished : m.finished[p]? = some false) :
    ∃ len, metadata.info.getPieceLength p = .ok len ∧
      (∀ entry, m.pendingPieces p = some entry →
        entry.blocksReceived < entry.totalBlocksNeeded) ∧
      (∀ k, k * blockLen < len →
        Free m p k ∨ Pending m p k ∨ k * blockLen ∈ acceptedSince p history) ∧
      (∀ lost : Finset Nat,
        (∀ k ∈ lost, k * blockLen < len ∧ ¬ Free m p k ∧ ¬ Pending m p k) →
          lost.card ≤ received m p) ∧
      ∃ k, k * blockLen < len ∧ (Free m p k ∨ Pending m p k) := by
  have h := scheduled_of_run h1 h2 hrun hquiet
  obtain ⟨len, hlen, _⟩ := TorrentMetadata.Info.getPieceLength_pos h1 h2 p
  exact ⟨len, hlen, h.waiting p,
    fun k hin => (h.accounted p).covered len k hunfinished hlen hin,
    fun lost hlost => h.card_lost_le hunfinished hlen lost hlost,
    h.exists_left h1 h2 hunfinished hlen⟩

/-- The second of two blocks has arrived: the entry waits for the first, and the second is
neither free nor pending, so it was accepted. -/
theorem no_block_lost_secondArrived :
    ∃ history, (machine sampleSha1 twoBlocks).Run history secondArrived ∧
      (∀ entry, secondArrived.pendingPieces 0 = some entry →
        entry.blocksReceived < entry.totalBlocksNeeded) ∧
      16384 ∈ acceptedSince 0 history ∧
      ∃ k, k * blockLen < 16385 ∧ (Free secondArrived 0 k ∨ Pending secondArrived 0 k) := by
  have hrun := run_of_startingAt (secondDelivery_run sampleSha1)
  obtain ⟨len, hlen, hwaits, hcovered, _, hleft⟩ := no_block_lost (by decide) (by decide) hrun
    (by simp [secondDelivery, twoRequests]) 0 rfl
  obtain rfl : 16385 = len := Except.ok.inj hlen
  refine ⟨_, hrun, hwaits, ?_, hleft⟩
  rcases hcovered 1 (by decide) with hfree | hpending | haccepted
  · obtain ⟨next, hnext, hle⟩ := hfree
    obtain rfl : 16385 = next := Option.some.inj hnext
    exact absurd hle (by decide)
  · have hanswered : ¬ secondArrived.pendingBlocks.Has (blockKey 0 16384) := by decide
    exact absurd hpending hanswered
  · exact haccepted

end PieceManager

end BitTorrentClient
