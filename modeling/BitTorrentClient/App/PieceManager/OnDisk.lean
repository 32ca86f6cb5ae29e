/-
  App/PieceManager/OnDisk.lean --- what the output file holds of a finished piece.

  `deliverBlock` verifies the assembled buffer and then hands `writePiece` the
  block that arrived last.  The two are the same bytes exactly when that block is
  the whole piece; `WritesWhole` is the condition, and runs that meet it keep the
  invariant `OnDisk`.  The buffer a finished piece was verified with is nowhere
  in the state, so it is read off the history.
-/
import BitTorrentClient.App.PieceManager.Completion

set_option autoImplicit false

namespace BitTorrentClient

open Library

namespace PieceManager

variable {sha1 : Bytes → Sha1Hash} {metadata : TorrentMetadata} {m m' : PieceManager}
  {history : List (Transition PieceManager (Op × Answer))}

/-- The buffer the piece `i` was verified with when it was last marked finished. -/
def verifiedBuffer (i : Nat) : List (Transition PieceManager (Op × Answer)) → Option Bytes
  | [] => none
  | t :: older =>
      if t.source.finished[i]? = some false ∧ t.target.finished[i]? = some true then
        match t.label.1, t.source.openPending i with
        | .deliverBlock _ offset data _, .ok pending => some (pending.receive offset data).data
        | _, _ => none
      else verifiedBuffer i older

/-- The part of the output file that belongs to the piece `i` of length `len`. -/
def region (metadata : TorrentMetadata) (m : PieceManager) (i len : Nat) : Bytes :=
  slice m.fileHandler.content (i * metadata.info.pieceLength) len

/-- The region of every finished piece is the buffer that was verified. -/
def OnDisk (sha1 : Bytes → Sha1Hash) (metadata : TorrentMetadata)
    (history : List (Transition PieceManager (Op × Answer))) (m : PieceManager) : Prop :=
  ∀ i, m.finished[i]? = some true → ∃ buffer,
    verifiedBuffer i history = some buffer ∧
    metadata.info.getPieceLength i = .ok buffer.length ∧
    metadata.info.pieceHashes[i]? = some (sha1 buffer) ∧
    region metadata m i buffer.length = buffer

/-- Every piece of the output file has the hash that was announced. -/
def FileHashes (sha1 : Bytes → Sha1Hash) (metadata : TorrentMetadata) (m : PieceManager) : Prop :=
  ∀ i < metadata.numPieces, ∃ len, metadata.info.getPieceLength i = .ok len ∧
    metadata.info.pieceHashes[i]? = some (sha1 (region metadata m i len))

/-- A delivery that makes a piece verify is as long as the piece, and the offset of
the piece in the file fits 64 bits. -/
def WritesWhole (sha1 : Bytes → Sha1Hash) (m : PieceManager) (l : Op × Answer) : Prop :=
  ∀ idx offset data fate pending, l.1 = .deliverBlock idx offset data fate →
    m.Verifies sha1 idx offset data pending →
      data.length = pending.data.length ∧ idx * m.fileHandler.pieceSize < 2 ^ 64

/-! ## One step -/

/-- A stream that is good after a step was good before it. -/
theorem Step.good_of {l : Op × Answer} (h : m.Step sha1 l m')
    (hgood : m'.fileHandler.good = true) : m.fileHandler.good = true := by
  cases h with
  | requested hr =>
    cases hr with
    | nothing => exact hgood
    | block _ _ _ hout => simpa [hout.target] using hgood
  | returned hr => cases hr <;> exact hgood
  | delivered hd =>
    cases hd with
    | completed _ _ _ _ => exact (FileHandler.store_of_good hgood).1
    | _ => exact hgood

/-- Pieces that were finished before a step keep their buffer. -/
theorem verifiedBuffer_of_finished {l : Op × Answer} {i : Nat}
    (h : m.finished[i]? = some true) :
    verifiedBuffer i (⟨m, l, m'⟩ :: history) = verifiedBuffer i history := by
  rw [verifiedBuffer, if_neg]
  simp [h]

/-- So do pieces that a step does not finish. -/
theorem verifiedBuffer_of_same {l : Op × Answer} {i : Nat}
    (h : m'.finished[i]? = m.finished[i]?) :
    verifiedBuffer i (⟨m, l, m'⟩ :: history) = verifiedBuffer i history := by
  rw [verifiedBuffer, if_neg]
  rw [h]
  rintro ⟨hfalse, htrue⟩
  exact absurd (hfalse.symm.trans htrue) (by simp)

/-- A step that writes nothing and finishes nothing. -/
theorem OnDisk.frame (h : OnDisk sha1 metadata history m) {l : Op × Answer}
    (hfile : m'.fileHandler = m.fileHandler) (hfinished : m'.finished = m.finished) :
    OnDisk sha1 metadata (⟨m, l, m'⟩ :: history) m' := by
  intro i hi
  rw [hfinished] at hi
  obtain ⟨buffer, hbuffer, hlen, hhash, hregion⟩ := h i hi
  refine ⟨buffer, ?_, hlen, hhash, ?_⟩
  · rw [verifiedBuffer_of_finished hi, hbuffer]
  · rw [region, hfile]
    exact hregion

/-- A block that is as long as its piece lies at its start and is the buffer. -/
theorem Accepts.whole {idx offset : Nat} {data : Bytes} {pending : PendingPiece}
    (h : m.Accepts idx offset data pending) (hwhole : data.length = pending.data.length) :
    (pending.receive offset data).data = data := by
  have hfits := h.fits
  obtain rfl : offset = 0 := by omega
  exact overwrite_full hwhole

/-- Writing a piece where it belongs leaves the regions of other pieces alone. -/
theorem region_other {file : FileHandler} {idx i len : Nat} {data : Bytes} (hne : i ≠ idx)
    (hlen : len ≤ metadata.info.pieceLength) (hdata : data.length ≤ metadata.info.pieceLength)
    (hin : len ≤ file.content.length - i * metadata.info.pieceLength) :
    slice (overwrite 0 file.content (idx * metadata.info.pieceLength) data)
        (i * metadata.info.pieceLength) len =
      slice file.content (i * metadata.info.pieceLength) len := by
  refine slice_overwrite_of_disjoint 0 _ _ hin ?_
  rcases Nat.lt_or_gt_of_ne hne with hlt | hgt
  · have hstep := Nat.mul_le_mul_right metadata.info.pieceLength hlt
    rw [Nat.succ_mul] at hstep
    exact Or.inl (by omega)
  · have hstep := Nat.mul_le_mul_right metadata.info.pieceLength hgt
    rw [Nat.succ_mul] at hstep
    exact Or.inr (by omega)

/-- Finishing a piece with a block that is all of it. -/
theorem OnDisk.completed (h : OnDisk sha1 metadata history m) (hs : Shaped metadata m)
    {idx offset : Nat} {data : Bytes} {fate : DiskFate} {pending : PendingPiece}
    {answer : Answer} (hv : m.Verifies sha1 idx offset data pending)
    (hlt : idx < m.finished.length) (hwhole : data.length = pending.data.length)
    (hposition : idx * m.fileHandler.pieceSize < 2 ^ 64)
    (hgood : (m.fileHandler.store idx data fate).good = true) :
    OnDisk sha1 metadata
      (⟨m, (.deliverBlock idx offset data fate, answer),
        ((m.stored idx offset data pending).withFile
          (m.fileHandler.store idx data fate)).markFinished idx⟩ :: history)
      (((m.stored idx offset data pending).withFile
        (m.fileHandler.store idx data fate)).markFinished idx) := by
  have hentry := (hs.openPending hv.unfinished hv.opened).1
  have hbuffer := hv.whole hwhole
  have hplace : m.fileHandler.position idx = idx * metadata.info.pieceLength := by
    rw [FileHandler.position, u64_of_lt hposition, hs.pieceSize]
  have hcontent := (FileHandler.store_of_good hgood).2
  rw [hplace] at hcontent
  intro i hi
  by_cases heq : i = idx
  · subst heq
    refine ⟨data, ?_, ?_, ?_, ?_⟩
    · rw [verifiedBuffer, if_pos ⟨hv.unfinished, hi⟩, hv.opened]
      simp only [hbuffer]
    · rw [hwhole]
      exact hentry.length
    · rw [← hs.hashes, hv.hash, hbuffer]
    · rw [region, markFinished_fileHandler, withFile_fileHandler, hcontent]
      exact slice_overwrite_self 0 _ _ _
  · have hold : m.finished[i]? = some true := by
      simpa [List.getElem?_set_ne (Ne.symm heq)] using hi
    obtain ⟨buffer, hsome, hlen, hhash, hregion⟩ := h i hold
    refine ⟨buffer, ?_, hlen, hhash, ?_⟩
    · rw [verifiedBuffer_of_finished hold, hsome]
    · have hin := congrArg List.length hregion
      rw [region, length_slice] at hin
      rw [region, markFinished_fileHandler, withFile_fileHandler, hcontent,
        region_other heq (TorrentMetadata.Info.getPieceLength_le hlen).1
          (hwhole ▸ (TorrentMetadata.Info.getPieceLength_le hentry.length).1) (by omega)]
      exact hregion

theorem OnDisk.step (h : OnDisk sha1 metadata history m) (hs : Shaped metadata m)
    {l : Op × Answer} (hstep : m.Step sha1 l m') (hwhole : WritesWhole sha1 m l)
    (hgood : m'.fileHandler.good = true) :
    OnDisk sha1 metadata (⟨m, l, m'⟩ :: history) m' := by
  cases hstep with
  | requested hr =>
    cases hr with
    | nothing => exact h.frame rfl rfl
    | block _ _ _ hout => exact h.frame (by rw [hout.target]) (by rw [hout.target])
  | returned hr => cases hr <;> exact h.frame rfl rfl
  | delivered hd =>
    cases hd with
    | completed hv _ hlt _ =>
      obtain ⟨hdata, hposition⟩ := hwhole _ _ _ _ _ rfl hv
      exact h.completed hs hv hlt hdata hposition hgood
    | _ => exact h.frame rfl rfl

/-! ## Runs -/

/-- When the last block of every piece is the whole piece and the stream is still
good, the file holds every finished piece, and a complete file is the announced
one. -/
theorem onDisk_of_run (hrun : (machine sha1 metadata).Run history m)
    (hwhole : Machine.Guarded (WritesWhole sha1) history)
    (hgood : m.fileHandler.good = true) :
    OnDisk sha1 metadata history m := by
  induction hrun with
  | start hinit =>
    obtain ⟨disk, tracked, rfl⟩ := hinit
    intro i hi
    simp [new, List.getElem?_replicate] at hi
  | snoc hsofar hlast ih =>
    have hstep := machine_step hlast
    exact (ih hwhole.tail (hstep.good_of hgood)).step (shaped_of_run hsofar) hstep
      (hwhole _ List.mem_cons_self) hgood

/-- The regions of finished pieces have their hashes. -/
theorem OnDisk.fileHashes (h : OnDisk sha1 metadata history m)
    (hall : AllFinished metadata m) : FileHashes sha1 metadata m := by
  intro i hi
  obtain ⟨buffer, _, hlen, hhash, hregion⟩ := h i (hall i hi)
  exact ⟨buffer.length, hlen, by rw [hregion, hhash]⟩

/-- **On disk.**  In every run whose completing deliveries carry their whole piece,
as long as the stream stays good, every finished piece is in the file as it was
verified, and a complete file hashes piece by piece to the announced hashes. -/
theorem onDisk_of_writesWhole (hrun : (machine sha1 metadata).Run history m)
    (hwhole : Machine.Guarded (WritesWhole sha1) history)
    (hgood : m.fileHandler.good = true) :
    OnDisk sha1 metadata history m ∧ (m.isComplete = true → FileHashes sha1 metadata m) := by
  have h := onDisk_of_run hrun hwhole hgood
  refine ⟨h, fun hcomplete => h.fileHashes ?_⟩
  exact ((bookkeeping_of_run hrun).isComplete_iff (shaped_of_run hrun)).mp hcomplete

/-- A delivery is as long as the buffer it goes to. -/
def deliversWhole (m : PieceManager) (l : Op × Answer) : Bool :=
  match l.1 with
  | .deliverBlock idx _ data _ =>
      decide (idx * m.fileHandler.pieceSize < 2 ^ 64) &&
        (m.openPending idx).toOption.all fun pending => data.length = pending.data.length
  | _ => true

theorem writesWhole_of_deliversWhole {l : Op × Answer} (h : m.deliversWhole l = true) :
    WritesWhole sha1 m l := by
  intro idx offset data fate pending hlabel hv
  rw [deliversWhole, hlabel] at h
  obtain ⟨hplace, hlength⟩ := Bool.and_eq_true_iff.mp h
  rw [hv.opened] at hlength
  exact ⟨of_decide_eq_true hlength, of_decide_eq_true hplace⟩

/-- Two pieces of one block each, of which the second comes first. -/
theorem onDisk_of_writesWhole_twoPieces :
    ∃ history m, (machine sampleSha1 zeroSevenSeven).Run history m ∧
      m.isComplete = true ∧ OnDisk sampleSha1 zeroSevenSeven history m ∧
      FileHashes sampleSha1 zeroSevenSeven m := by
  have hcalls : (runOps sampleSha1 (new zeroSevenSeven emptyFile true)
      [.deliverBlock 1 0 [7] .written, .deliverBlock 0 0 [0, 7] .written] []).toOption.any
      (fun r => r.1.all (fun t => t.source.deliversWhole t.label) &&
        decide (r.2.isComplete = true ∧ r.2.fileHandler.good = true)) = true := by
    decide +kernel
  obtain ⟨history, m, hrun, hchecks⟩ := exists_run hcalls
  simp only [Bool.and_eq_true, List.all_eq_true, decide_eq_true_eq] at hchecks
  obtain ⟨hwhole, hcomplete, hgood⟩ := hchecks
  obtain ⟨hdisk, hfile⟩ := onDisk_of_writesWhole hrun
    (fun t ht => writesWhole_of_deliversWhole (hwhole t ht)) hgood
  exact ⟨history, m, hrun, hcomplete, hdisk, hfile hcomplete⟩

/-- The byte 7 at offset 1 finishes the piece of the bytes 0 and 7, and is all that
is written, at the start of the piece. -/
theorem not_onDisk_lastBlock :
    ∃ history m, (machine sampleSha1 (onePiece zeroSevenDigest 2)).Run history m ∧
      m.fileHandler.good = true ∧ m.isComplete = true ∧ m.fileHandler.content = [7] ∧
      ¬ OnDisk sampleSha1 (onePiece zeroSevenDigest 2) history m ∧
      ¬ FileHashes sampleSha1 (onePiece zeroSevenDigest 2) m := by
  have hrun := runOps_run sampleSha1 (onePiece zeroSevenDigest 2)
    [.deliverBlock 0 1 [7] .written] (.start ⟨emptyFile, true, rfl⟩) rfl
  refine ⟨_, _, hrun, rfl, by decide, by decide, ?_, ?_⟩
  · intro h
    obtain ⟨buffer, hbuffer, _, _, hregion⟩ := h 0 rfl
    obtain rfl : [0, 7] = buffer := Option.some.inj hbuffer
    exact absurd hregion (by decide)
  · intro h
    obtain ⟨len, hlen, hhash⟩ := h 0 (by decide)
    obtain rfl : 2 = len := Except.ok.inj hlen
    exact absurd hhash (by decide)

end PieceManager

end BitTorrentClient
