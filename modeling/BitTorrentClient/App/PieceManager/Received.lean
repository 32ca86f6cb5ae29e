/-
  App/PieceManager/Received.lean --- the blocks behind an entry.

  An entry of `_pendingPieces` keeps a buffer and a counter, not the blocks they
  came from.  `receivedSince` reads those off the history: the blocks copied into
  the buffer of a piece since its entry was created.  `Recorded` says that buffer
  and counter are what these blocks make of an empty entry.

  `EntryStep` says by cases what a step does to one entry, and every result about
  the blocks of a piece is an induction over it.
-/
import BitTorrentClient.App.PieceManager.Geometry
import BitTorrentClient.Library.Assembly

set_option autoImplicit false

namespace BitTorrentClient

open Library

/-- A block as it was delivered: its offset in the piece, and its bytes. -/
abbrev Received := Fragment UInt8

theorem totalBlocks_eq_blockCount (len : Nat) : totalBlocks len = blockCount blockLen len := rfl

theorem blockLen_pos : 0 < blockLen := by decide

/-- The entry is an empty one into which these blocks were copied. -/
structure PendingPiece.Replays (pending : PendingPiece) (blocks : List Received) : Prop where
  counted : pending.blocksReceived = blocks.length
  buffer : pending.data = assemble 0 pending.data.length blocks
  fits : ∀ f ∈ blocks, f.Fits pending.data.length

theorem PendingPiece.replays_empty (len total : Nat) :
    PendingPiece.Replays ⟨List.replicate len 0, 0, total⟩ [] where
  counted := rfl
  buffer := by simp [assemble]
  fits := by simp

theorem PendingPiece.Replays.receive {pending : PendingPiece} {blocks : List Received}
    (h : pending.Replays blocks) {offset : Nat} {data : Bytes}
    (hfits : offset + data.length ≤ pending.data.length) :
    (pending.receive offset data).Replays (⟨offset, data⟩ :: blocks) := by
  have hlen : (pending.receive offset data).data.length = pending.data.length :=
    length_overwrite hfits
  refine ⟨?_, ?_, ?_⟩
  · rw [List.length_cons, ← h.counted]
    rfl
  · rw [hlen, assemble, ← h.buffer]
    rfl
  · rw [hlen]
    exact List.forall_mem_cons.mpr ⟨hfits, h.fits⟩

namespace PieceManager

variable {sha1 : Bytes → Sha1Hash} {metadata : TorrentMetadata} {m m' : PieceManager}
  {history : List (Transition PieceManager (Op × Answer))}

/-! ## Steps about other pieces -/

/-- The step delivers, takes back or hands out a block of the piece `p`. -/
def About (p : Nat) (l : Op × Answer) : Prop :=
  (∃ offset data fate, l.1 = .deliverBlock p offset data fate) ∨
  (∃ block, l.1 = .returnBlock block ∧ block.pieceIndex = p) ∨
  (∃ block, l.2 = .block (some block) ∧ block.pieceIndex = p)

/-- All that the manager keeps of the piece `p` is as it was. -/
structure Elsewhere (p : Nat) (m m' : PieceManager) : Prop where
  finished : m'.finished[p]? = m.finished[p]?
  entry : m'.pendingPieces p = m.pendingPieces p
  next : m'.nextOffsets[p]? = m.nextOffsets[p]?
  pending : ∀ o, m'.pendingBlocks.Has (blockKey p o) ↔ m.pendingBlocks.Has (blockKey p o)

theorem Elsewhere.refl (p : Nat) (m : PieceManager) : Elsewhere p m m :=
  ⟨rfl, rfl, rfl, fun _ => Iff.rfl⟩

/-- Erasing a block of another piece. -/
theorem has_erase_other {pending : BlockSet} {block : Block} {p : Nat}
    (hne : block.pieceIndex ≠ p) (o : Nat) :
    (pending.erase block).Has (blockKey p o) ↔ pending.Has (blockKey p o) := by
  rw [KeyedSet.has_erase, and_iff_left]
  exact fun hkey => hne (blockKey_inj.mp hkey).1.symm

theorem Delivery.elsewhere {idx offset : Nat} {data : Bytes} {fate : DiskFate} {r : Reply}
    (h : m.Delivery sha1 idx offset data fate r m') {p : Nat} (hne : idx ≠ p) :
    Elsewhere p m m' := by
  cases h with
  | finished _ => exact Elsewhere.refl p m
  | outOfBounds _ _ _ => exact ⟨rfl, by simp [Ne.symm hne], rfl, fun _ => Iff.rfl⟩
  | stored _ _ => exact ⟨rfl, by simp [Ne.symm hne], rfl, has_erase_other hne⟩
  | discarded _ _ _ _ _ =>
    exact ⟨rfl, by simp [Ne.symm hne], by simp [hne], has_erase_other hne⟩
  | threw _ _ => exact ⟨rfl, by simp [Ne.symm hne], rfl, has_erase_other hne⟩
  | completed _ _ _ _ =>
    exact ⟨by simp [hne], by simp [Ne.symm hne], rfl, has_erase_other hne⟩

/-- A step that is not about a piece leaves all that is kept of it as it was. -/
theorem Step.elsewhere {l : Op × Answer} (h : m.Step sha1 l m') {p : Nat}
    (hnot : ¬ About p l) : Elsewhere p m m' := by
  cases h with
  | requested hr =>
    cases hr with
    | nothing => exact Elsewhere.refl p m
    | @block i bit b _ _ _ _ hout =>
      have hne : b.pieceIndex ≠ p := fun heq => hnot (Or.inr (Or.inr ⟨b, rfl, heq⟩))
      rw [hout.target]
      refine ⟨rfl, rfl, List.getElem?_set_ne (hout.key.1 ▸ hne), fun o => ?_⟩
      rw [KeyedSet.has_insert, or_iff_left]
      exact fun hkey => hne (blockKey_inj.mp hkey).1.symm
  | @delivered idx offset data fate _ _ hd =>
    exact hd.elsewhere fun heq => hnot (Or.inl ⟨offset, data, fate, by rw [heq]⟩)
  | @returned block _ _ hr =>
    have hne : block.pieceIndex ≠ p := fun heq => hnot (Or.inr (Or.inl ⟨block, rfl, heq⟩))
    cases hr with
    | unknown _ => exact Elsewhere.refl p m
    | freed _ _ => exact ⟨rfl, rfl, List.getElem?_set_ne hne, has_erase_other hne⟩

/-! ## The blocks of a piece -/

/-- The block would be copied into the buffer of its piece. -/
def accepting (m : PieceManager) (idx offset : Nat) (data : Bytes) : Bool :=
  match m.finished[idx]?, m.openPending idx with
  | some false, .ok pending => decide (offset + data.length ≤ pending.data.length)
  | _, _ => false

theorem accepting_iff {idx offset : Nat} {data : Bytes} :
    m.accepting idx offset data = true ↔ ∃ pending, m.Accepts idx offset data pending := by
  unfold accepting
  constructor
  · intro h
    split at h
    · rename_i pending hunfinished hopen
      exact ⟨pending, hunfinished, hopen, of_decide_eq_true h⟩
    · simp at h
  · intro hexists
    obtain ⟨pending, h⟩ := hexists
    rw [h.unfinished, h.opened]
    exact decide_eq_true h.fits

/-- The blocks copied into the buffer of the piece `p` since its entry was created,
latest first; none without an entry. -/
def receivedSince (p : Nat) : List (Transition PieceManager (Op × Answer)) → List Received
  | [] => []
  | t :: older =>
      if (t.target.pendingPieces p).isNone then []
      else
        match t.label.1 with
        | .deliverBlock idx offset data _ =>
            if idx = p ∧ t.source.accepting idx offset data = true then
              ⟨offset, data⟩ :: receivedSince p older
            else receivedSince p older
        | _ => receivedSince p older

theorem receivedSince_of_none {t : Transition PieceManager (Op × Answer)} {p : Nat}
    (hnone : t.target.pendingPieces p = none) : receivedSince p (t :: history) = [] := by
  rw [receivedSince, hnone]
  simp only [Option.isNone_none, if_true]

theorem receivedSince_of_accepts {t : Transition PieceManager (Op × Answer)} {p offset : Nat}
    {data : Bytes} {fate : DiskFate} {entry pending : PendingPiece}
    (hentry : t.target.pendingPieces p = some entry)
    (hlabel : t.label.1 = .deliverBlock p offset data fate)
    (ha : t.source.Accepts p offset data pending) :
    receivedSince p (t :: history) = ⟨offset, data⟩ :: receivedSince p history := by
  rw [receivedSince, hentry, hlabel]
  simp [accepting_iff.mpr ⟨pending, ha⟩]

/-- A step that copies no block into the buffer of `p`. -/
theorem receivedSince_of_not_accepts {t : Transition PieceManager (Op × Answer)} {p : Nat}
    {entry : PendingPiece} (hentry : t.target.pendingPieces p = some entry)
    (hnot : ∀ offset data fate pending, t.label.1 = .deliverBlock p offset data fate →
      ¬ t.source.Accepts p offset data pending) :
    receivedSince p (t :: history) = receivedSince p history := by
  rw [receivedSince, hentry]
  simp only [Option.isNone_some, Bool.false_eq_true, if_false]
  split
  · rename_i idx offset data fate hlabel
    rw [if_neg]
    rintro ⟨rfl, haccepting⟩
    obtain ⟨pending, ha⟩ := accepting_iff.mp haccepting
    exact hnot offset data fate pending hlabel ha
  · rfl

/-! ## One step -/

/-- The entry survives a block that was copied into it: the piece waits for more, or
its write throws. -/
def Survives (sha1 : Bytes → Sha1Hash) (m : PieceManager) (idx offset : Nat) (data : Bytes)
    (pending : PendingPiece) : Prop :=
  (pending.receive offset data).isFinished = false ∨
    (m.Verifies sha1 idx offset data pending ∧ m.fileHandler.isOpen = false)

/-- What a step does to the entry of the piece `p`, and to the blocks behind it. -/
inductive EntryStep (sha1 : Bytes → Sha1Hash) (p : Nat) (m : PieceManager) (l : Op × Answer)
    (m' : PieceManager) (before : List Received) : List Received → Prop
  /-- the entry is as it was -/
  | kept : m'.pendingPieces p = m.pendingPieces p →
      EntryStep sha1 p m l m' before before
  /-- a block that does not fit opened the entry -/
  | opened {pending : PendingPiece} : m.finished[p]? = some false →
      m.openPending p = .ok pending → m'.pendingPieces p = some pending →
      EntryStep sha1 p m l m' before before
  /-- a block was copied into the buffer -/
  | received {offset : Nat} {data : Bytes} {fate : DiskFate} {pending : PendingPiece} :
      l.1 = .deliverBlock p offset data fate → m.Accepts p offset data pending →
      m.Survives sha1 p offset data pending →
      m'.pendingPieces p = some (pending.receive offset data) →
      EntryStep sha1 p m l m' before (⟨offset, data⟩ :: before)
  /-- the piece was finished or thrown away -/
  | dropped : m'.pendingPieces p = none → EntryStep sha1 p m l m' before []

/-- A step that keeps the entry and copies nothing into it. -/
theorem receivedSince_kept {l : Op × Answer} {p : Nat}
    (hrecord : m.pendingPieces p = none → receivedSince p history = [])
    (hentry : m'.pendingPieces p = m.pendingPieces p)
    (hnot : ∀ offset data fate pending, l.1 = .deliverBlock p offset data fate →
      ¬ m.Accepts p offset data pending) :
    receivedSince p (⟨m, l, m'⟩ :: history) = receivedSince p history := by
  cases hold : m.pendingPieces p with
  | none => rw [receivedSince_of_none (hentry.trans hold), hrecord hold]
  | some entry => exact receivedSince_of_not_accepts (hentry.trans hold) hnot

theorem entryStep_kept {l : Op × Answer} {p : Nat}
    (hrecord : m.pendingPieces p = none → receivedSince p history = [])
    (hentry : m'.pendingPieces p = m.pendingPieces p)
    (hnot : ∀ offset data fate pending, l.1 = .deliverBlock p offset data fate →
      ¬ m.Accepts p offset data pending) :
    EntryStep sha1 p m l m' (receivedSince p history)
      (receivedSince p (⟨m, l, m'⟩ :: history)) := by
  rw [receivedSince_kept hrecord hentry hnot]
  exact .kept hentry

theorem Delivery.entryStep {idx offset : Nat} {data : Bytes} {fate : DiskFate} {r : Reply}
    (hd : m.Delivery sha1 idx offset data fate r m') (p : Nat)
    (hrecord : m.pendingPieces p = none → receivedSince p history = []) :
    EntryStep sha1 p m (.deliverBlock idx offset data fate, .reply r) m'
      (receivedSince p history)
      (receivedSince p (⟨m, (.deliverBlock idx offset data fate, .reply r), m'⟩ :: history)) := by
  by_cases hp : p = idx
  · subst hp
    have hlabel : ((.deliverBlock p offset data fate, .reply r) : Op × Answer).1 =
        .deliverBlock p offset data fate := rfl
    cases hd with
    | finished hdone =>
      apply entryStep_kept hrecord rfl
      intro _ _ _ _ _ ha
      exact absurd (hdone.symm.trans ha.unfinished) (by simp)
    | @outOfBounds pending hunfinished hopen hout =>
      have hentry : (m.setPending p (some pending)).pendingPieces p = some pending := by simp
      rw [receivedSince_of_not_accepts hentry]
      · exact .opened hunfinished hopen hentry
      · intro offset' data' fate' pending' heq ha
        obtain ⟨_, rfl, rfl, _⟩ := Op.deliverBlock.inj heq
        obtain rfl := Except.ok.inj (hopen.symm.trans ha.opened)
        have := ha.fits
        omega
    | @stored pending ha hwaits =>
      have hentry : (m.stored p offset data pending).pendingPieces p =
          some (pending.receive offset data) := by simp
      rw [receivedSince_of_accepts hentry hlabel ha]
      exact .received hlabel ha (Or.inl hwaits) hentry
    | @discarded pending _ _ _ _ _ _ =>
      have hnone : ((m.stored p offset data pending).markDiscarded p).pendingPieces p = none := by
        simp
      rw [receivedSince_of_none hnone]
      exact .dropped hnone
    | @threw pending _ hv hclosed =>
      have hentry : (m.stored p offset data pending).pendingPieces p =
          some (pending.receive offset data) := by simp
      rw [receivedSince_of_accepts hentry hlabel hv.toAccepts]
      exact .received hlabel hv.toAccepts (Or.inr ⟨hv, hclosed⟩) hentry
    | @completed pending _ _ _ _ =>
      have hnone : (((m.stored p offset data pending).withFile
          (m.fileHandler.store p data fate)).markFinished p).pendingPieces p = none := by simp
      rw [receivedSince_of_none hnone]
      exact .dropped hnone
  · apply entryStep_kept hrecord
    · cases hd <;> simp [hp]
    · intro offset' data' fate' pending' heq
      exact absurd (Op.deliverBlock.inj heq).1.symm hp

/-- What one step does to one entry. -/
theorem Step.entryStep {l : Op × Answer} (h : m.Step sha1 l m') (p : Nat)
    (hrecord : m.pendingPieces p = none → receivedSince p history = []) :
    EntryStep sha1 p m l m' (receivedSince p history)
      (receivedSince p (⟨m, l, m'⟩ :: history)) := by
  cases h with
  | requested hr =>
    apply entryStep_kept hrecord
    · cases hr with
      | nothing => rfl
      | block _ _ _ hout => rw [hout.target]
    · simp
  | delivered hd => exact hd.entryStep p hrecord
  | returned hr =>
    apply entryStep_kept hrecord
    · cases hr <;> rfl
    · simp

/-! ## Runs -/

/-- The entry of the piece `p` is what the blocks received since its creation make of
an empty one, and without an entry there are none. -/
structure Recorded (history : List (Transition PieceManager (Op × Answer))) (m : PieceManager)
    (p : Nat) : Prop where
  none : m.pendingPieces p = none → receivedSince p history = []
  some : ∀ pending, m.pendingPieces p = some pending →
    pending.Replays (receivedSince p history)

/-- The entry a delivery works on. -/
theorem Recorded.opened {p : Nat} (h : Recorded history m p) {pending : PendingPiece}
    (hopen : m.openPending p = .ok pending) : pending.Replays (receivedSince p history) := by
  unfold openPending at hopen
  split at hopen
  · rename_i stored hstored
    cases hopen
    exact h.some _ hstored
  · rename_i hnone
    obtain ⟨len, hlen, hopen⟩ := bind_eq_ok.mp hopen
    cases hopen
    rw [h.none hnone]
    exact PendingPiece.replays_empty len _

theorem Recorded.step {p : Nat} (h : Recorded history m p) {l : Op × Answer}
    (hstep : m.Step sha1 l m') : Recorded (⟨m, l, m'⟩ :: history) m' p := by
  refine ⟨fun hnone => receivedSince_of_none hnone, fun pending hsome => ?_⟩
  have hentry := hstep.entryStep p h.none
  generalize receivedSince p (⟨m, l, m'⟩ :: history) = after at hentry ⊢
  cases hentry with
  | kept hkept => exact h.some pending (hkept.symm.trans hsome)
  | opened _ hopen hset =>
    obtain rfl := Option.some.inj (hset.symm.trans hsome)
    exact h.opened hopen
  | received _ ha _ hset =>
    obtain rfl := Option.some.inj (hset.symm.trans hsome)
    exact (h.opened ha.opened).receive ha.fits
  | dropped hnone =>
    rw [hnone] at hsome
    cases hsome

theorem recorded_new (disk : Disk) (tracked : Bool) (p : Nat) :
    Recorded [] (new metadata disk tracked) p where
  none := fun _ => rfl
  some := by simp [new]

/-- Every entry of a reachable state is made of the blocks received since its
creation. -/
theorem recorded_of_run (hrun : (machine sha1 metadata).Run history m) (p : Nat) :
    Recorded history m p := by
  refine hrun.always (I := fun older s => Recorded older s p) (G := fun _ _ => True) ?_ ?_
    fun _ _ _ => trivial
  · intro s hinit
    obtain ⟨disk, tracked, rfl⟩ := hinit
    exact recorded_new disk tracked p
  · intro older s l s' _ hrecorded _ hs
    exact hrecorded.step (machine_step hs)

end PieceManager

end BitTorrentClient
