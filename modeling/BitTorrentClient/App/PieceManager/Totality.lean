/-
  App/PieceManager/Totality.lean --- when `deliverBlock` comes back.

  `Delivery` says what a call did that came back.  Here is the converse: in a state
  of the right shape, every call for a piece of the torrent does come back, and what
  `Delivery` allows is what the call does.
-/
import BitTorrentClient.App.PieceManager.Geometry

set_option autoImplicit false

namespace BitTorrentClient

open Library

theorem bind_ok {ε α β : Type} (a : α) (f : α → Except ε β) :
    ((.ok a : Except ε α) >>= f) = f a := rfl

/-- What `writePiece` throws. -/
def writeFailure : StdException := .runtimeError "Failed to write to file!"

theorem FileHandler.writePiece_of_closed {file : FileHandler} {index : Nat} {data : Bytes}
    {fate : DiskFate} (hsize : data.length ≤ file.pieceSize) (hclosed : file.isOpen = false) :
    file.writePiece index data fate = .ok (.error writeFailure, file) := by
  rw [writePiece, if_neg (Nat.not_lt.mpr hsize), hclosed]
  rfl

theorem FileHandler.writePiece_of_open {file : FileHandler} {index : Nat} {data : Bytes}
    {fate : DiskFate} (hsize : data.length ≤ file.pieceSize) (hopen : file.isOpen = true) :
    file.writePiece index data fate = .ok (.ok (), file.store index data fate) := by
  rw [writePiece, if_neg (Nat.not_lt.mpr hsize), hopen]
  rfl

namespace PieceManager

variable {sha1 : Bytes → Sha1Hash} {metadata : TorrentMetadata} {m m' : PieceManager}

/-! ## The branches of `deliverBlock` -/

section Branches

variable {idx offset : Nat} {data : Bytes} {fate : DiskFate} {pending : PendingPiece}

theorem deliverBlock_of_finished (h : m.finished[idx]? = some true) :
    m.deliverBlock sha1 idx offset data fate = .ok (.ok true, m) := by
  rw [deliverBlock, readAt_eq_ok.mpr h, bind_ok]
  rfl

theorem deliverBlock_of_outOfBounds (hunfinished : m.finished[idx]? = some false)
    (hopen : m.openPending idx = .ok pending)
    (hout : pending.data.length < offset + data.length) :
    m.deliverBlock sha1 idx offset data fate =
      .ok (.ok false, m.setPending idx (some pending)) := by
  rw [deliverBlock, readAt_eq_ok.mpr hunfinished, bind_ok, if_neg Bool.false_ne_true, hopen,
    bind_ok, if_pos hout]
  rfl

/-- What is left to do once the block is stored. -/
theorem deliverBlock_of_accepts (h : m.Accepts idx offset data pending) :
    m.deliverBlock sha1 idx offset data fate =
      if (pending.receive offset data).isFinished = true then do
        if ← (m.stored idx offset data pending).verifyHash sha1 idx
            (pending.receive offset data).data then do
          match ← m.fileHandler.writePiece idx data fate with
          | (.error e, file) =>
              pure (.error e, { m.stored idx offset data pending with fileHandler := file })
          | (.ok (), file) => do
              let m ← { m.stored idx offset data pending with fileHandler := file }.finishPiece idx
              pure (.ok true, m)
        else do
          let m ← (m.stored idx offset data pending).discardPiece idx
          pure (.ok false, m)
      else .ok (.ok true, m.stored idx offset data pending) := by
  rw [deliverBlock, readAt_eq_ok.mpr h.unfinished, bind_ok, if_neg Bool.false_ne_true, h.opened,
    bind_ok, if_neg (Nat.not_lt.mpr h.fits)]
  rfl

theorem verifyHash_of_hash {buffer : Bytes} {expected : Sha1Hash}
    (h : m.verificationHashes[idx]? = some expected) :
    m.verifyHash sha1 idx buffer = .ok (decide (expected = sha1 buffer)) := by
  rw [verifyHash, readAt_eq_ok.mpr h, bind_ok]
  rfl

theorem deliverBlock_of_waits (h : m.Accepts idx offset data pending)
    (hwaits : (pending.receive offset data).isFinished = false) :
    m.deliverBlock sha1 idx offset data fate =
      .ok (.ok true, m.stored idx offset data pending) := by
  rw [deliverBlock_of_accepts h, hwaits, if_neg Bool.false_ne_true]

theorem deliverBlock_of_mismatch (h : m.Accepts idx offset data pending)
    (hcomplete : (pending.receive offset data).isFinished = true) {expected : Sha1Hash}
    (hexpected : m.verificationHashes[idx]? = some expected)
    (hne : expected ≠ sha1 (pending.receive offset data).data)
    (hidx : idx < m.nextOffsets.length) :
    m.deliverBlock sha1 idx offset data fate =
      .ok (.ok false, (m.stored idx offset data pending).markDiscarded idx) := by
  have hhash : (m.stored idx offset data pending).verificationHashes[idx]? = some expected :=
    hexpected
  have hset : writeAt (m.stored idx offset data pending).nextOffsets idx 0 =
      .ok ((m.stored idx offset data pending).nextOffsets.set idx 0) :=
    writeAt_eq_ok.mpr ⟨hidx, rfl⟩
  rw [deliverBlock_of_accepts h, if_pos hcomplete, verifyHash_of_hash hhash, bind_ok,
    decide_eq_false hne, if_neg Bool.false_ne_true, discardPiece, hset]
  rfl

theorem deliverBlock_of_closed (h : m.Verifies sha1 idx offset data pending)
    (hsize : data.length ≤ m.fileHandler.pieceSize) (hclosed : m.fileHandler.isOpen = false) :
    m.deliverBlock sha1 idx offset data fate =
      .ok (.error writeFailure, m.stored idx offset data pending) := by
  have hhash : (m.stored idx offset data pending).verificationHashes[idx]? =
      some (sha1 (pending.receive offset data).data) := h.hash
  rw [deliverBlock_of_accepts h.toAccepts, if_pos h.complete, verifyHash_of_hash hhash, bind_ok,
    decide_eq_true rfl, if_pos rfl, FileHandler.writePiece_of_closed hsize hclosed]
  rfl

theorem finishPiece_of_lt (hidx : idx < m.finished.length) (hbyte : idx / 8 < m.bitfield.length) :
    m.finishPiece idx = .ok (m.markFinished idx) := by
  obtain ⟨byte, hget⟩ : ∃ byte, m.bitfield[idx / 8]? = some byte :=
    ⟨_, List.getElem?_eq_getElem hbyte⟩
  have hmodify : m.bitfield.set (idx / 8) (byte ||| (1 <<< (7 - idx % 8).toUInt8)) =
      m.bitfield.modify (idx / 8) fun byte => byte ||| pieceMask idx := by
    rw [List.modify_eq_set_getElem?, hget]
    rfl
  rw [finishPiece, writeAt_eq_ok.mpr ⟨hidx, rfl⟩, bind_ok, setPiece]
  simp only [setPending_bitfield, readAt_eq_ok.mpr hget, bind_ok,
    writeAt_eq_ok.mpr ⟨hbyte, rfl⟩, hmodify, pure, Except.pure]
  by_cases hlast : m.metadata.numPieces ≤ m.piecesFinished + 1
  · simp [isComplete, notifyProgress, notifyOne, markFinished, hlast]
  · simp [isComplete, notifyProgress, markFinished, hlast]

theorem deliverBlock_of_open (h : m.Verifies sha1 idx offset data pending)
    (hsize : data.length ≤ m.fileHandler.pieceSize) (hopen : m.fileHandler.isOpen = true)
    (hidx : idx < m.finished.length) (hbyte : idx / 8 < m.bitfield.length) :
    m.deliverBlock sha1 idx offset data fate =
      .ok (.ok true, ((m.stored idx offset data pending).withFile
        (m.fileHandler.store idx data fate)).markFinished idx) := by
  have hhash : (m.stored idx offset data pending).verificationHashes[idx]? =
      some (sha1 (pending.receive offset data).data) := h.hash
  have hfinish : ((m.stored idx offset data pending).withFile
      (m.fileHandler.store idx data fate)).finishPiece idx =
        .ok (((m.stored idx offset data pending).withFile
          (m.fileHandler.store idx data fate)).markFinished idx) := finishPiece_of_lt hidx hbyte
  rw [deliverBlock_of_accepts h.toAccepts, if_pos h.complete, verifyHash_of_hash hhash, bind_ok,
    decide_eq_true rfl, if_pos rfl, FileHandler.writePiece_of_open hsize hopen, bind_ok]
  change (((m.stored idx offset data pending).withFile
      (m.fileHandler.store idx data fate)).finishPiece idx >>= fun m =>
        (pure (.ok true, m) : Except Fault (Reply × PieceManager))) = _
  rw [hfinish]
  rfl

end Branches

/-! ## Every branch is taken -/

/-- The entry of an unfinished piece opens. -/
theorem Shaped.exists_open (hs : Shaped metadata m) {idx len : Nat}
    (hlen : metadata.info.getPieceLength idx = .ok len) :
    ∃ pending, m.openPending idx = .ok pending := by
  cases hentry : m.pendingPieces idx with
  | some pending =>
    refine ⟨pending, ?_⟩
    rw [PieceManager.openPending, hentry]
  | none =>
    refine ⟨⟨List.replicate len 0, 0, totalBlocks len⟩, ?_⟩
    rw [PieceManager.openPending, hentry, getPieceLength, hs.metadata_eq, hlen]
    rfl

/-- Accepted data is no longer than the output file's pieces, so the assertion of
`writePiece` holds. -/
theorem Accepts.size_le (hs : Shaped metadata m) {idx offset : Nat} {data : Bytes}
    {pending : PendingPiece} (h : m.Accepts idx offset data pending) :
    data.length ≤ m.fileHandler.pieceSize := by
  have hentry := (hs.openPending h.unfinished h.opened).1
  have hle := (TorrentMetadata.Info.getPieceLength_le hentry.length).1
  have hfits := h.fits
  rw [hs.pieceSize]
  omega

/-- The byte of a piece is in the bitfield. -/
theorem Shaped.byte_lt (hs : Shaped metadata m) {idx : Nat} (hidx : idx < metadata.numPieces) :
    idx / 8 < m.bitfield.length := by
  rw [hs.bitfield_length]
  omega

/-- **A delivery to a piece of the torrent comes back**, and does what `Delivery`
says. -/
theorem deliverBlock_total (hs : Shaped metadata m) {idx len : Nat}
    (hidx : idx < metadata.numPieces) (hlen : metadata.info.getPieceLength idx = .ok len)
    (sha1 : Bytes → Sha1Hash) (offset : Nat) (data : Bytes) (fate : DiskFate) :
    ∃ r m', m.deliverBlock sha1 idx offset data fate = .ok (r, m') := by
  have hfinished : idx < m.finished.length := hs.finished_length ▸ hidx
  have hhashes : idx < m.verificationHashes.length := by
    rw [hs.hashes]
    exact hidx
  obtain ⟨pending, hopen⟩ := hs.exists_open hlen
  cases hdone : m.finished[idx] with
  | true =>
    exact ⟨_, _, deliverBlock_of_finished (by rw [List.getElem?_eq_getElem hfinished, hdone])⟩
  | false =>
    have hunfinished : m.finished[idx]? = some false := by
      rw [List.getElem?_eq_getElem hfinished, hdone]
    by_cases hout : pending.data.length < offset + data.length
    · exact ⟨_, _, deliverBlock_of_outOfBounds hunfinished hopen hout⟩
    · have ha : m.Accepts idx offset data pending := ⟨hunfinished, hopen, Nat.le_of_not_lt hout⟩
      have hhash := List.getElem?_eq_getElem hhashes
      cases hcomplete : (pending.receive offset data).isFinished with
      | false => exact ⟨_, _, deliverBlock_of_waits ha hcomplete⟩
      | true =>
        by_cases hverified :
            m.verificationHashes[idx] = sha1 (pending.receive offset data).data
        · have hv : m.Verifies sha1 idx offset data pending :=
            ⟨ha, hcomplete, by rw [hhash, hverified]⟩
          cases hfile : m.fileHandler.isOpen with
          | false => exact ⟨_, _, deliverBlock_of_closed hv (ha.size_le hs) hfile⟩
          | true =>
            exact ⟨_, _, deliverBlock_of_open hv (ha.size_le hs) hfile hfinished
              (hs.byte_lt hidx)⟩
        · exact ⟨_, _, deliverBlock_of_mismatch ha hcomplete hhash hverified
            (hs.offsets_length ▸ hidx)⟩

/-! ## A piece of two blocks -/

/-- A block of ones. -/
def firstBlock : Bytes := List.replicate 16384 1

/-- The ones and a 7. -/
def onesSeven : Bytes := firstBlock ++ [7]

theorem firstBlock_length : firstBlock.length = 16384 := List.length_replicate

theorem onesSeven_length : onesSeven.length = 16385 := by
  rw [onesSeven, List.length_append, firstBlock_length, List.length_singleton]

theorem slice_onesSeven_first : slice onesSeven 0 16384 = firstBlock := by
  rw [slice, List.drop_zero, onesSeven, List.take_left' firstBlock_length]

theorem slice_onesSeven_second : slice onesSeven 16384 1 = [7] := by
  rw [slice, onesSeven, List.drop_left' firstBlock_length]
  rfl

def onesSevenDigest : Sha1Hash :=
  ⟨[251, 28, 180, 246, 68, 251, 17, 225, 146, 165, 101, 10,
    22, 211, 129, 152, 133, 40, 7, 182], rfl⟩

/-- SHA1 on this piece, too. -/
def onesSevenSha1 (data : Bytes) : Sha1Hash :=
  if data = onesSeven then onesSevenDigest else sampleSha1 data

/-- A torrent of one piece of two blocks, the second of one byte. -/
def twoBlocks : TorrentMetadata := onePiece onesSevenDigest 16385

/-- The first block of the piece was asked for. -/
def firstAsked : PieceManager :=
  { new twoBlocks emptyFile true with
    pendingBlocks := KeyedSet.empty.insert ⟨0, 0, 16384⟩
    nextOffsets := [16384] }

/-- Both were. -/
def bothAsked : PieceManager :=
  { new twoBlocks emptyFile true with
    pendingBlocks := (KeyedSet.empty.insert ⟨0, 0, 16384⟩).insert ⟨0, 16384, 1⟩
    nextOffsets := [16385] }

/-- The second of them arrived. -/
def secondArrived : PieceManager :=
  bothAsked.stored 0 16384 [7] ⟨List.replicate 16385 0, 0, 2⟩

/-- So did the first. -/
def bothArrived : PieceManager :=
  ((secondArrived.stored 0 0 firstBlock ⟨overwrite 0 (List.replicate 16385 0) 16384 [7], 1, 2⟩
    ).withFile (secondArrived.fileHandler.store 0 firstBlock .written)).markFinished 0

/-- The calls that asked for them. -/
def twoRequests : List (Transition PieceManager (Op × Answer)) :=
  [⟨firstAsked, (.requestBlock [128], .block (some ⟨0, 16384, 1⟩)), bothAsked⟩,
    ⟨new twoBlocks emptyFile true, (.requestBlock [128], .block (some ⟨0, 0, 16384⟩)), firstAsked⟩]

def secondDelivery : Transition PieceManager (Op × Answer) :=
  ⟨bothAsked, (.deliverBlock 0 16384 [7] .written, .reply (.ok true)), secondArrived⟩

def firstDelivery : Transition PieceManager (Op × Answer) :=
  ⟨secondArrived, (.deliverBlock 0 0 firstBlock .written, .reply (.ok true)), bothArrived⟩

theorem bothAsked_accepts : bothAsked.Accepts 0 16384 [7] ⟨List.replicate 16385 0, 0, 2⟩ where
  unfinished := rfl
  opened := rfl
  fits := by
    rw [List.length_replicate]
    decide

/-- The buffer of the piece with both blocks in it. -/
theorem overwrite_both :
    overwrite 0 (overwrite 0 (List.replicate 16385 0) 16384 [7]) 0 firstBlock = onesSeven := by
  have hend : overwrite 0 (List.replicate 16385 0) 16384 [7] =
    (List.replicate 16385 (0 : UInt8)).take 16384 ++ [7] := overwrite_end List.length_replicate
  have hlen : firstBlock.length = ((List.replicate 16385 (0 : UInt8)).take 16384).length := by
    rw [firstBlock_length, List.length_take, List.length_replicate]
    decide
  rw [hend, overwrite_start, hlen, List.drop_left]
  rfl

theorem secondArrived_verifies : secondArrived.Verifies onesSevenSha1 0 0 firstBlock
    ⟨overwrite 0 (List.replicate 16385 0) 16384 [7], 1, 2⟩ where
  unfinished := rfl
  opened := rfl
  fits := by
    rw [length_overwrite (by rw [List.length_replicate]; decide), List.length_replicate,
      firstBlock_length]
    decide
  complete := rfl
  hash := by
    rw [PendingPiece.receive, overwrite_both]
    exact congrArg some (if_pos rfl).symm

theorem twoRequests_run (sha1 : Bytes → Sha1Hash) :
    ((machine sha1 twoBlocks).startingAt (new twoBlocks emptyFile true)).Run twoRequests
      bothAsked :=
  runOps_startingAt sha1 twoBlocks [.requestBlock [128], .requestBlock [128]] rfl

/-- The second block comes first. -/
theorem secondDelivery_run (sha1 : Bytes → Sha1Hash) :
    ((machine sha1 twoBlocks).startingAt (new twoBlocks emptyFile true)).Run
      (secondDelivery :: twoRequests) secondArrived := by
  have hstep : (machine sha1 twoBlocks).step bothAsked
      (.deliverBlock 0 16384 [7] .written, .reply (.ok true)) secondArrived := by
    change (bothAsked.deliverBlock sha1 0 16384 [7] .written >>= _) = _
    rw [deliverBlock_of_waits bothAsked_accepts rfl]
    rfl
  exact (twoRequests_run sha1).snoc hstep

/-- Then the first one comes and finishes the piece. -/
theorem firstDelivery_run :
    ((machine onesSevenSha1 twoBlocks).startingAt (new twoBlocks emptyFile true)).Run
      (firstDelivery :: secondDelivery :: twoRequests) bothArrived := by
  have hsize : firstBlock.length ≤ secondArrived.fileHandler.pieceSize := by
    rw [firstBlock_length]
    decide
  have hstep : (machine onesSevenSha1 twoBlocks).step secondArrived
      (.deliverBlock 0 0 firstBlock .written, .reply (.ok true)) bothArrived := by
    change (secondArrived.deliverBlock onesSevenSha1 0 0 firstBlock .written >>= _) = _
    rw [deliverBlock_of_open secondArrived_verifies hsize rfl (by decide) (by decide)]
    rfl
  exact (secondDelivery_run onesSevenSha1).snoc hstep

end PieceManager

end BitTorrentClient
