/-
  App/PieceManager/WriteFailure.lean --- pieces whose write fails.

  A stream that is not open makes `writePiece` throw, after the last block of the
  piece was counted and before its entry is dropped: the entry keeps a counter that
  equals the number of blocks, the next block takes the counter past it, and no
  delivery finds the piece complete again.  `Stranded` is that state, and it is for
  ever.  A stream that fails while it is open is not noticed: the piece is marked as
  if it had been written.

  Writes do what they are relied on for exactly when every write that is made
  transfers its whole piece to its place.
-/
import BitTorrentClient.App.PieceManager.Completion
import BitTorrentClient.App.PieceManager.OnDisk
import BitTorrentClient.App.PieceManager.Scheduler
import BitTorrentClient.App.PieceManager.Received

set_option autoImplicit false

namespace BitTorrentClient

open Library

namespace PieceManager

variable {sha1 : Bytes → Sha1Hash} {metadata : TorrentMetadata} {m m' : PieceManager}
  {history : List (Transition PieceManager (Op × Answer))}

/-! ## Marks and writes -/

/-- The step marks the piece `i` as finished, in its flag or in its bit. -/
def Marks (i : Nat) (t : Transition PieceManager (Op × Answer)) : Prop :=
  t.target.finished[i]? ≠ t.source.finished[i]? ∨
    pieceBit t.target.bitfield i ≠ pieceBit t.source.bitfield i

/-- The step is a delivery that verified the piece `i`, and all of the verified buffer
reached the device, at the place of the piece. -/
def Writes (sha1 : Bytes → Sha1Hash) (metadata : TorrentMetadata) (i : Nat)
    (t : Transition PieceManager (Op × Answer)) : Prop :=
  ∃ offset data fate pending, t.label.1 = .deliverBlock i offset data fate ∧
    t.source.Verifies sha1 i offset data pending ∧
    t.source.fileHandler.transferred i data fate = (pending.receive offset data).data ∧
    t.source.fileHandler.position i = i * metadata.info.pieceLength

/-- Some block of the piece is free or pending, and with an output file that can be
written from now on some continuation finishes the piece. -/
def Recoverable (sha1 : Bytes → Sha1Hash) (metadata : TorrentMetadata) (p : Nat)
    (m : PieceManager) : Prop :=
  (∃ len k, metadata.info.getPieceLength p = .ok len ∧ k * blockLen < len ∧
    (Free m p k ∨ Pending m p k)) ∧
  ∃ file : FileHandler, file.isOpen = true ∧ file.good = true ∧
    ∃ later m', ((machine sha1 metadata).startingAt (m.withFile file)).Run later m' ∧
      m'.finished[p]? = some true

/-- Only a piece that is written is marked or counted, and a piece whose write fails can
be recovered. -/
structure Dependable (sha1 : Bytes → Sha1Hash) (metadata : TorrentMetadata)
    (t : Transition PieceManager (Op × Answer)) : Prop where
  marked : ∀ i, Marks i t → Writes sha1 metadata i t
  counted : t.target.piecesFinished ≠ t.source.piecesFinished → ∃ i, Writes sha1 metadata i t
  recovers : ∀ idx offset data fate pending, t.label.1 = .deliverBlock idx offset data fate →
    t.source.Verifies sha1 idx offset data pending →
    t.source.fileHandler.isOpen = false ∨
      t.source.fileHandler.transferred idx data fate ≠ data →
    Recoverable sha1 metadata idx t.target

/-- If the step makes a piece verify, the file is open and good, the piece has a place in
it, the last block is the whole piece and the device takes it. -/
def WriteSucceeds (sha1 : Bytes → Sha1Hash) (m : PieceManager) (l : Op × Answer) : Prop :=
  ∀ idx offset data fate pending, l.1 = .deliverBlock idx offset data fate →
    m.Verifies sha1 idx offset data pending →
      m.fileHandler.isOpen = true ∧ m.fileHandler.good = true ∧
      idx * m.fileHandler.pieceSize < 2 ^ 63 ∧ data.length = pending.data.length ∧
      fate.Takes data.length

/-! ## Stranded pieces -/

/-- The piece is unfinished and its entry has counted at least as many blocks as the
piece has. -/
def Stranded (p : Nat) (m : PieceManager) : Prop :=
  m.finished[p]? = some false ∧ ∃ pending, m.pendingPieces p = some pending ∧
    pending.totalBlocksNeeded ≤ pending.blocksReceived

theorem Stranded.opened {p : Nat} (h : Stranded p m) {pending : PendingPiece}
    (hopen : m.openPending p = .ok pending) :
    m.pendingPieces p = some pending ∧ pending.totalBlocksNeeded ≤ pending.blocksReceived := by
  obtain ⟨_, stored, hstored, hcount⟩ := h
  rw [openPending, hstored] at hopen
  cases hopen
  exact ⟨hstored, hcount⟩

/-- A block that is taken for a stranded piece completes nothing. -/
theorem Stranded.not_complete {p offset : Nat} {data : Bytes} (h : Stranded p m)
    {pending : PendingPiece} (ha : m.Accepts p offset data pending) :
    (pending.receive offset data).isFinished = false := by
  have hcount := (h.opened ha.opened).2
  simp only [PendingPiece.isFinished, PendingPiece.receive, beq_eq_false_iff_ne]
  omega

/-- No step takes a piece out of this state. -/
theorem Stranded.step {p : Nat} (h : Stranded p m) {l : Op × Answer} (hstep : m.Step sha1 l m') :
    Stranded p m' := by
  obtain ⟨hunfinished, pending, hentry, hcount⟩ := h
  have h : Stranded p m := ⟨hunfinished, pending, hentry, hcount⟩
  cases hstep with
  | requested hr =>
    cases hr with
    | nothing => exact h
    | block _ _ _ hout =>
      rw [hout.target]
      exact h
  | returned hr => cases hr <;> exact h
  | @delivered idx offset data fate r m' hd =>
    by_cases hp : idx = p
    · subst hp
      cases hd with
      | finished _ => exact h
      | outOfBounds _ hopen _ =>
        obtain ⟨_, hmore⟩ := h.opened hopen
        exact ⟨hunfinished, _, by simp, hmore⟩
      | @stored opened ha _ =>
        obtain ⟨_, hmore⟩ := h.opened ha.opened
        exact ⟨hunfinished, opened.receive offset data, by simp, Nat.le_succ_of_le hmore⟩
      | discarded ha hcomplete _ _ _ =>
        exact absurd hcomplete (by rw [h.not_complete ha]; simp)
      | threw hv _ =>
        exact absurd hv.complete (by rw [h.not_complete hv.toAccepts]; simp)
      | completed hv _ _ _ =>
        exact absurd hv.complete (by rw [h.not_complete hv.toAccepts]; simp)
    · have hsame := hd.elsewhere hp
      exact ⟨hsame.finished.trans hunfinished, pending, hsame.entry.trans hentry, hcount⟩

/-- A stranded piece is finished by no continuation, whatever becomes of the file. -/
theorem Stranded.not_recoverable {p : Nat} (h : Stranded p m) :
    ¬ Recoverable sha1 metadata p m := by
  intro hrecoverable
  obtain ⟨_, file, _, _, later, m', hrun, hdone⟩ := hrecoverable
  have hstranded : Stranded p m' := by
    refine hrun.invariant (I := Stranded p) ?_ ?_
    · intro s hinit
      cases hinit
      exact h
    · intro s l s' hI hs
      exact hI.step (@machine_step sha1 metadata _ _ _ hs)
  exact absurd (hstranded.1.symm.trans hdone) (by simp)

/-! ## One step -/

/-- A step either leaves the records of finished pieces alone or is a delivery that
verified a piece and found the file open. -/
theorem Step.marks_or_same {l : Op × Answer} (h : m.Step sha1 l m') :
    (m'.finished = m.finished ∧ m'.bitfield = m.bitfield ∧
      m'.piecesFinished = m.piecesFinished) ∨
    ∃ idx offset data fate pending, l.1 = .deliverBlock idx offset data fate ∧
      m.Verifies sha1 idx offset data pending ∧ m.fileHandler.isOpen = true ∧
      idx < m.finished.length ∧ idx / 8 < m.bitfield.length ∧
      m' = ((m.stored idx offset data pending).withFile
        (m.fileHandler.store idx data fate)).markFinished idx := by
  cases h with
  | requested hr =>
    cases hr with
    | nothing => exact Or.inl ⟨rfl, rfl, rfl⟩
    | block _ _ _ hout =>
      rw [hout.target]
      exact Or.inl ⟨rfl, rfl, rfl⟩
  | returned hr => cases hr <;> exact Or.inl ⟨rfl, rfl, rfl⟩
  | @delivered idx offset data fate _ _ hd =>
    cases hd with
    | @completed pending hv hopen hidx hbyte =>
      exact Or.inr ⟨idx, offset, data, fate, pending, rfl, hv, hopen, hidx, hbyte, rfl⟩
    | _ => exact Or.inl ⟨rfl, rfl, rfl⟩

/-- No piece that verifies is empty. -/
theorem Verifies.length_pos (hs : Shaped metadata m) {idx offset : Nat} {data : Bytes}
    {pending : PendingPiece} (h : m.Verifies sha1 idx offset data pending) :
    0 < pending.data.length := by
  have htotal := (hs.openPending h.unfinished h.opened).1.total
  have hcount : pending.blocksReceived + 1 = pending.totalBlocksNeeded := by
    simpa [PendingPiece.isFinished, PendingPiece.receive] using h.complete
  have hlt : 0 < totalBlocks pending.data.length := by omega
  simpa using lt_totalBlocks_iff.mp hlt

/-- A write that succeeds transfers the verified buffer to the place of its piece. -/
theorem WriteSucceeds.writes (hs : Shaped metadata m) {l : Op × Answer}
    (h : WriteSucceeds sha1 m l) {idx offset : Nat} {data : Bytes} {fate : DiskFate}
    {pending : PendingPiece} (hlabel : l.1 = .deliverBlock idx offset data fate)
    (hv : m.Verifies sha1 idx offset data pending) :
    m.fileHandler.transferred idx data fate = data ∧ Writes sha1 metadata idx ⟨m, l, m'⟩ := by
  obtain ⟨_, hgood, hnear, hwhole, htakes⟩ := h idx offset data fate pending hlabel hv
  have hplace : m.fileHandler.position idx = idx * m.fileHandler.pieceSize :=
    u64_of_lt (by omega)
  have hne : data ≠ [] := by
    intro hnil
    subst hnil
    have := hv.length_pos hs
    simp at hwhole
    omega
  have hall : m.fileHandler.transferred idx data fate = data :=
    (FileHandler.transferred_eq_iff hne).mpr ⟨hgood, hplace ▸ hnear, htakes⟩
  refine ⟨hall, offset, data, fate, pending, hlabel, hv, ?_, ?_⟩
  · rw [hall, hv.whole hwhole]
  · rw [hplace, hs.pieceSize]

/-- A step whose write succeeds is dependable. -/
theorem WriteSucceeds.dependable (hs : Shaped metadata m) {l : Op × Answer}
    (hstep : m.Step sha1 l m') (h : WriteSucceeds sha1 m l) :
    Dependable sha1 metadata ⟨m, l, m'⟩ := by
  have hrecovers : ∀ idx offset data fate pending, l.1 = .deliverBlock idx offset data fate →
      m.Verifies sha1 idx offset data pending →
      m.fileHandler.isOpen = false ∨ m.fileHandler.transferred idx data fate ≠ data →
      Recoverable sha1 metadata idx m' := by
    intro idx offset data fate pending hlabel hv hfailed
    rcases hfailed with hclosed | hpartial
    · exact absurd ((h idx offset data fate pending hlabel hv).1.symm.trans hclosed) (by simp)
    · have hwritten : _ ∧ Writes sha1 metadata idx ⟨m, l, m'⟩ := h.writes hs hlabel hv
      exact absurd hwritten.1 hpartial
  rcases hstep.marks_or_same with ⟨hfinished, hbits, hcount⟩ |
      ⟨idx, offset, data, fate, pending, hlabel, hv, _, hidx, hbyte, htarget⟩
  · refine ⟨fun i hi => ?_, fun hi => absurd hcount hi, hrecovers⟩
    rcases hi with hi | hi
    · exact absurd (congrArg (·[i]?) hfinished) hi
    · exact absurd (congrArg (pieceBit · i) hbits) hi
  · have hwrites : Writes sha1 metadata idx ⟨m, l, m'⟩ := (h.writes hs hlabel hv).2
    subst htarget
    refine ⟨fun i hi => ?_, fun _ => ⟨idx, hwrites⟩, hrecovers⟩
    -- the only piece that is marked is the one that was delivered
    have heq : i = idx := by
      by_contra hne
      rcases hi with hi | hi
      · exact hi (List.getElem?_set_ne (Ne.symm hne))
      · refine hi ?_
        have hmodify := pieceBit_modify hbyte i
        simpa [hne] using hmodify
    exact heq ▸ hwrites

/-- A write that transferred the verified buffer to the place of its piece is one that
succeeds. -/
theorem Verifies.succeeds (hs : Shaped metadata m) {idx offset : Nat} {data : Bytes}
    {fate : DiskFate} {pending : PendingPiece} (h : m.Verifies sha1 idx offset data pending)
    (htransferred : m.fileHandler.transferred idx data fate = (pending.receive offset data).data)
    (hplace : m.fileHandler.position idx = idx * metadata.info.pieceLength) :
    m.fileHandler.good = true ∧ idx * m.fileHandler.pieceSize < 2 ^ 63 ∧
      data.length = pending.data.length ∧ fate.Takes data.length := by
  have hbuffer : (pending.receive offset data).data.length = pending.data.length :=
    length_overwrite h.fits
  have hfits := h.fits
  have hpos := h.length_pos hs
  obtain ⟨n, htake⟩ := m.fileHandler.exists_transferred_eq_take idx data fate
  -- the buffer is at least as long as the block, and a first part of the block
  have hlen : min n data.length = pending.data.length := by
    rw [← hbuffer, ← htransferred, htake, List.length_take]
  have hwhole : data.length = pending.data.length := by omega
  have hall : m.fileHandler.transferred idx data fate = data := by
    rw [htake, List.take_of_length_le (by omega)]
  have hne : data ≠ [] := List.length_pos_iff.mp (by omega)
  obtain ⟨hgood, hnear, htakes⟩ := (FileHandler.transferred_eq_iff hne).mp hall
  refine ⟨hgood, ?_, hwhole, htakes⟩
  rw [hs.pieceSize, ← hplace]
  exact hnear

/-- A dependable step whose delivery verifies a piece succeeds in writing it. -/
theorem Dependable.writeSucceeds (hs : Shaped metadata m) {l : Op × Answer}
    (hstep : m.Step sha1 l m') (h : Dependable sha1 metadata ⟨m, l, m'⟩) :
    WriteSucceeds sha1 m l := by
  intro idx offset data fate pending hlabel hv
  cases hstep with
  | requested _ => cases hlabel
  | returned _ => cases hlabel
  | @delivered idx' offset' data' fate' r m' hd =>
    obtain ⟨rfl, rfl, rfl, rfl⟩ := Op.deliverBlock.inj hlabel
    cases hd with
    | finished hdone => exact absurd (hv.unfinished.symm.trans hdone) (by simp)
    | outOfBounds _ hopen hout =>
      obtain rfl := Except.ok.inj (hv.opened.symm.trans hopen)
      exact absurd hv.fits (Nat.not_le.mpr hout)
    | stored ha hwaits =>
      obtain rfl := hv.toAccepts.unique ha
      exact absurd (hv.complete.symm.trans hwaits) (by simp)
    | discarded ha _ hexpected hne _ =>
      obtain rfl := hv.toAccepts.unique ha
      exact absurd (Option.some.inj (hexpected.symm.trans hv.hash)) hne
    | threw hv' hclosed =>
      refine absurd (h.recovers _ _ _ _ _ rfl hv (Or.inl hclosed)) (Stranded.not_recoverable ?_)
      obtain rfl := hv.toAccepts.unique hv'.toAccepts
      have hcount : pending.blocksReceived + 1 = pending.totalBlocksNeeded := by
        simpa [PendingPiece.isFinished, PendingPiece.receive] using hv.complete
      exact ⟨hv.unfinished, pending.receive offset' data', by simp, Nat.le_of_eq hcount.symm⟩
    | @completed pending' hv' hopen hidx _ =>
      obtain rfl := hv.toAccepts.unique hv'.toAccepts
      have hmarks : Marks idx' ⟨m, (.deliverBlock idx' offset' data' fate', .reply (.ok true)),
          ((m.stored idx' offset' data' pending).withFile
            (m.fileHandler.store idx' data' fate')).markFinished idx'⟩ := by
        have hset : (m.finished.set idx' true)[idx']? = some true := List.getElem?_set_self hidx
        refine Or.inl ?_
        change (m.finished.set idx' true)[idx']? ≠ m.finished[idx']?
        rw [hset, hv.unfinished]
        simp
      obtain ⟨_, _, _, _, hlabel', hw, htransferred, hplace⟩ := h.marked idx' hmarks
      obtain ⟨_, rfl, rfl, rfl⟩ := Op.deliverBlock.inj hlabel'
      obtain rfl := hv.toAccepts.unique hw.toAccepts
      exact ⟨hopen, hv.succeeds hs htransferred hplace⟩

/-! ## Runs -/

/-- **Failed writes.**  In every run, only pieces that are written are marked and counted,
and every piece whose write fails can still be finished, if and only if every delivery
that verifies a piece finds the file open and good and the piece to have a place in it,
carries the whole piece, and is taken by the device as a whole. -/
theorem dependable_iff_writeSucceeds (hrun : (machine sha1 metadata).Run history m) :
    (∀ t ∈ history, Dependable sha1 metadata t) ↔
      Machine.Guarded (WriteSucceeds sha1) history := by
  constructor
  · intro h t ht
    obtain ⟨hstep, earlier, hearlier, _⟩ := hrun.of_mem ht
    exact (h t ht).writeSucceeds (shaped_of_run hearlier) (machine_step hstep)
  · intro h t ht
    obtain ⟨hstep, earlier, hearlier, _⟩ := hrun.of_mem ht
    exact (h t ht).dependable (shaped_of_run hearlier) (machine_step hstep)

/-- A piece of one byte that is written. -/
theorem dependable_iff_writeSucceeds_oneByte :
    ∃ history m, (machine sampleSha1 (onePiece sevenDigest 1)).Run history m ∧
      m.finished = [true] ∧ ∀ t ∈ history, Dependable sampleSha1 (onePiece sevenDigest 1) t := by
  have hrun := runOps_run sampleSha1 (onePiece sevenDigest 1)
    [.deliverBlock 0 0 [7] .written] (.start ⟨emptyFile, true, rfl⟩) rfl
  refine ⟨_, _, hrun, rfl, (dependable_iff_writeSucceeds hrun).mpr ?_⟩
  intro t ht idx offset data fate pending hlabel hv
  obtain rfl := List.mem_singleton.mp ht
  obtain ⟨rfl, rfl, rfl, rfl⟩ := Op.deliverBlock.inj hlabel
  obtain rfl := Except.ok.inj hv.opened
  exact ⟨rfl, rfl, by decide, rfl, trivial⟩

/-- With a file that could not be opened, the piece of one byte is delivered and can
never be finished.  With a device that takes no byte, it is finished and nothing of it
is written. -/
theorem not_dependable_failingDisk :
    (∃ history m, (machine sampleSha1 (onePiece sevenDigest 1)).Run history m ∧
      ∃ t ∈ history, t.label.1 = .deliverBlock 0 0 [7] .written ∧
        ¬ Recoverable sampleSha1 (onePiece sevenDigest 1) 0 t.target ∧
        ¬ Dependable sampleSha1 (onePiece sevenDigest 1) t) ∧
    ∃ history m, (machine sampleSha1 (onePiece sevenDigest 1)).Run history m ∧
      m.finished = [true] ∧ m.fileHandler.content = [] ∧
      ∃ t ∈ history, ¬ Dependable sampleSha1 (onePiece sevenDigest 1) t := by
  refine ⟨?_, ?_⟩
  · have hrun := runOps_run sampleSha1 (onePiece sevenDigest 1)
      [.deliverBlock 0 0 [7] .written] (.start ⟨⟨none, false⟩, true, rfl⟩) rfl
    have hlost : ¬ Recoverable sampleSha1 (onePiece sevenDigest 1) 0
        ((new (onePiece sevenDigest 1) ⟨none, false⟩ true).stored 0 0 [7] ⟨[0], 0, 1⟩) :=
      Stranded.not_recoverable ⟨rfl, ⟨[7], 1, 1⟩, rfl, Nat.le_refl 1⟩
    refine ⟨_, _, hrun, _, List.mem_singleton_self _, rfl, hlost, fun h => hlost ?_⟩
    exact h.recovers 0 0 [7] .written ⟨[0], 0, 1⟩ rfl
      ⟨⟨rfl, rfl, by decide⟩, rfl, rfl⟩ (Or.inl rfl)
  · have hrun := runOps_run sampleSha1 (onePiece sevenDigest 1)
      [.deliverBlock 0 0 [7] (.failsAfter 0)] (.start ⟨emptyFile, true, rfl⟩) rfl
    refine ⟨_, _, hrun, rfl, rfl, _, List.mem_singleton_self _, fun h => ?_⟩
    obtain ⟨offset, data, fate, pending, hlabel, hv, htransferred, _⟩ :=
      h.marked 0 (Or.inl (by decide))
    obtain ⟨_, rfl, rfl, rfl⟩ := Op.deliverBlock.inj hlabel
    obtain rfl := Except.ok.inj hv.opened
    exact absurd htransferred (by decide)

end PieceManager

end BitTorrentClient
