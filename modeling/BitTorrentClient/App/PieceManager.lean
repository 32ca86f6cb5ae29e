/-
  App/PieceManager.lean --- the piece manager (`app/piece_manager.cpp`).

  Every public member function runs under one mutex, so a call is one step.  The
  three that change the state are translated here line by line; `Delivery`,
  `HandsOut` and `Returned` then say once, by cases, what a call that came back
  did, and every later result is derived from those.

  SHA1 is a parameter: nothing but its being a function is used.
-/
import BitTorrentClient.Core.TorrentMetadata
import BitTorrentClient.App.FileHandler
import BitTorrentClient.Library.KeyedList
import BitTorrentClient.Library.Search
import BitTorrentClient.Library.Machine
import Mathlib.Data.Prod.Lex
import Mathlib.Tactic.Simps.Basic

set_option autoImplicit false

namespace BitTorrentClient

open Library

/-- The length of every block but the last one of a piece. -/
def blockLen : Nat := 16384

/-- A piece some of whose blocks have arrived. -/
structure PendingPiece where
  data : Bytes
  blocksReceived : Nat
  totalBlocksNeeded : Nat
  deriving DecidableEq, Repr

namespace PendingPiece

/-- As many blocks were accepted as the piece has. -/
def isFinished (piece : PendingPiece) : Bool :=
  piece.blocksReceived == piece.totalBlocksNeeded

/-- Copy a block into the buffer and count it. -/
def receive (piece : PendingPiece) (offset : Nat) (data : Bytes) : PendingPiece where
  data := overwrite 0 piece.data offset data
  blocksReceived := piece.blocksReceived + 1
  totalBlocksNeeded := piece.totalBlocksNeeded

end PendingPiece

/-- How many blocks a piece of this length has. -/
def totalBlocks (len : Nat) : Nat := (len + blockLen - 1) / blockLen

/-- A block to ask a peer for. -/
structure Block where
  pieceIndex : Nat
  offset : Nat
  length : Nat
  deriving DecidableEq, Repr, Inhabited

/-- What `operator<` compares. -/
abbrev BlockKey := Nat ×ₗ Nat

/-- The key of the block of a piece at an offset. -/
def blockKey (pieceIndex offset : Nat) : BlockKey := toLex (pieceIndex, offset)

/-- Blocks are ordered, and equal, by piece and offset alone. -/
def Block.key (block : Block) : BlockKey := blockKey block.pieceIndex block.offset

theorem blockKey_inj {p q o o' : Nat} : blockKey p o = blockKey q o' ↔ p = q ∧ o = o' := by
  simp [blockKey]

/-- A `std::set` of blocks. -/
abbrev BlockSet := KeyedSet Block.key

/-- The progress display, of which only the counter is read and written here. -/
structure ProgressTracker where
  finishedPieces : Nat
  deriving DecidableEq, Repr

/-- One more piece is finished. -/
def ProgressTracker.notifyProgress (tracker : ProgressTracker) : ProgressTracker where
  finishedPieces := tracker.finishedPieces + 1

/-- The piece manager. -/
structure PieceManager where
  /-- how often `notify_one` was called on the completion condition -/
  completionNotified : Nat
  progressTracker : Option ProgressTracker
  fileHandler : FileHandler
  metadata : TorrentMetadata
  bitfield : Bytes
  pendingPieces : Nat → Option PendingPiece
  verificationHashes : List Sha1Hash
  finished : List Bool
  piecesFinished : Nat
  pendingBlocks : BlockSet
  nextOffsets : List Nat

/-- The value a call hands to its caller: a `bool`, or an exception. -/
abbrev Reply := Except StdException Bool

/-- The length of a piece, in 32-bit arithmetic; the last piece may be shorter. -/
def TorrentMetadata.Info.getPieceLength (info : TorrentMetadata.Info) (index : Nat) :
    Except Fault Nat :=
  let pieceLength := u32 info.pieceLength
  if index + 1 = info.pieceHashes.length then
    if pieceLength = 0 then .error .divisionByZero
    else
      let remainder := u32 info.fileLength % pieceLength
      if remainder ≠ 0 then .ok remainder else .ok pieceLength
  else .ok pieceLength

namespace PieceManager

/-- The constructor; the orchestrator passes a new tracker or none. -/
def new (metadata : TorrentMetadata) (disk : Disk) (tracked : Bool) : PieceManager where
  completionNotified := 0
  progressTracker := if tracked then some ⟨0⟩ else none
  fileHandler := FileHandler.new disk metadata.info.pieceLength
  metadata := metadata
  bitfield := List.replicate ((metadata.numPieces + 7) / 8) 0
  pendingPieces := fun _ => none
  verificationHashes := metadata.info.pieceHashes
  finished := List.replicate metadata.numPieces false
  piecesFinished := 0
  pendingBlocks := KeyedSet.empty
  nextOffsets := List.replicate metadata.numPieces 0

/-- The length of the piece `index` of the manager's torrent. -/
def getPieceLength (m : PieceManager) (index : Nat) : Except Fault Nat :=
  m.metadata.info.getPieceLength index

/-- All pieces are counted as finished. -/
def isComplete (m : PieceManager) : Bool := decide (m.metadata.numPieces ≤ m.piecesFinished)

/-! ## Requesting -/

/-- The loop of `_getNextBlockForPiece`: the first block from `currentOffset` on
that is not pending.  Every turn that does not end the loop advances the offset,
so the distance to the end of the piece is fuel enough. -/
def findGap (pending : BlockSet) (index pieceLength : Nat) : Nat → Nat → Option Block
  | 0, _ => none
  | fuel + 1, currentOffset =>
      if currentOffset < pieceLength then
        let block : Block := ⟨index, currentOffset, min blockLen (pieceLength - currentOffset)⟩
        if pending.contains block then
          findGap pending index pieceLength fuel (u32 (currentOffset + block.length))
        else some block
      else none

/-- The next block of a piece that is not pending, marked as pending. -/
def getNextBlockForPiece (m : PieceManager) (index : Nat) :
    Except Fault (Option (Block × PieceManager)) := do
  let pieceLength ← m.getPieceLength index
  let currentOffset ← readAt m.nextOffsets index
  match findGap m.pendingBlocks index (u32 pieceLength) (u32 pieceLength - currentOffset)
      currentOffset with
  | none => pure none
  | some block => do
      let nextOffsets ← writeAt m.nextOffsets index (u32 (block.offset + block.length))
      pure (some (block,
        { m with pendingBlocks := m.pendingBlocks.insert block, nextOffsets := nextOffsets }))

/-- Whether the bit `bit` of a byte is set. -/
def bitSet (byte : UInt8) (bit : Nat) : Bool := (byte >>> bit.toUInt8) &&& 1 != 0

/-- The first block that the peer has and that is wanted: bytes in order, bits of
a byte from the most significant one down. -/
def requestBlock (m : PieceManager) (peerBitfield : Bytes) :
    Except Fault (Option Block × PieceManager) := do
  let found ← (List.range m.bitfield.length).findSomeM? fun i => do
    let myByte ← readAt m.bitfield i
    let peerByte ← readAt peerBitfield i
    let needed := peerByte &&& ~~~myByte
    if needed > 0 then
      [7, 6, 5, 4, 3, 2, 1, 0].findSomeM? fun bit =>
        if bitSet needed bit then m.getNextBlockForPiece (u32 (i * 8 + (7 - bit)))
        else pure none
    else pure none
  match found with
  | some (block, m') => pure (some block, m')
  | none => pure (none, m)

/-! ## Delivering -/

section Delivering

variable (sha1 : Bytes → Sha1Hash)

/-- The entry of a piece, as it is after the creation check. -/
def openPending (m : PieceManager) (idx : Nat) : Except Fault PendingPiece :=
  match m.pendingPieces idx with
  | some pending => .ok pending
  | none => do
      let len ← m.getPieceLength idx
      pure ⟨List.replicate len 0, 0, totalBlocks len⟩

/-- Store or drop the entry of a piece. -/
@[simps -fullyApplied]
def setPending (m : PieceManager) (idx : Nat) (entry : Option PendingPiece) : PieceManager :=
  { m with pendingPieces := Function.update m.pendingPieces idx entry }

/-- Store an entry that has received a block, which is no longer pending.  The
length of the erased block plays no part in the erasure. -/
@[simps -fullyApplied]
def accept (m : PieceManager) (idx offset : Nat) (pending : PendingPiece) : PieceManager :=
  let finishedBlock : Block :=
    ⟨idx, offset, min blockLen (u32 (u32 pending.data.length + 2 ^ 32 - offset))⟩
  { m.setPending idx (some pending) with
    pendingBlocks := m.pendingBlocks.erase finishedBlock }

/-- Whether the buffer has the hash the metadata announces. -/
def verifyHash (m : PieceManager) (index : Nat) (data : Bytes) : Except Fault Bool := do
  let expectedHash ← readAt m.verificationHashes index
  pure (decide (expectedHash = sha1 data))

/-- Set the bit of a piece, most significant bit first. -/
def setPiece (m : PieceManager) (index : Nat) : Except Fault PieceManager := do
  let byte ← readAt m.bitfield (index / 8)
  let bitfield ← writeAt m.bitfield (index / 8) (byte ||| (1 <<< (7 - index % 8).toUInt8))
  pure { m with bitfield := bitfield }

/-- Whether the bit of a piece is set. -/
def hasPiece (m : PieceManager) (index : Nat) : Except Fault Bool := do
  let byte ← readAt m.bitfield (index / 8)
  pure (bitSet byte (7 - index % 8))

/-- Tell the progress tracker, when there is one. -/
def notifyProgress (m : PieceManager) : PieceManager :=
  { m with progressTracker := m.progressTracker.map ProgressTracker.notifyProgress }

/-- Wake the orchestrator up. -/
def notifyOne (m : PieceManager) : PieceManager :=
  { m with completionNotified := m.completionNotified + 1 }

/-- The bookkeeping after a piece was written. -/
def finishPiece (m : PieceManager) (idx : Nat) : Except Fault PieceManager := do
  let finished ← writeAt m.finished idx true
  let m ← ({ m with finished := finished }.setPending idx none).setPiece idx
  let m := { m with piecesFinished := m.piecesFinished + 1 }.notifyProgress
  pure (if m.isComplete then m.notifyOne else m)

/-- Throw a piece away. -/
def discardPiece (m : PieceManager) (idx : Nat) : Except Fault PieceManager := do
  let nextOffsets ← writeAt m.nextOffsets idx 0
  pure { m.setPending idx none with nextOffsets := nextOffsets }

/-- Take a block of a piece. -/
def deliverBlock (m : PieceManager) (idx offset : Nat) (data : Bytes) (fate : DiskFate) :
    Except Fault (Reply × PieceManager) := do
  let done ← readAt m.finished idx
  if done then pure (.ok true, m)
  else do
    let pending ← m.openPending idx
    if offset + data.length > pending.data.length then
      pure (.ok false, m.setPending idx (some pending))
    else do
      let pending := pending.receive offset data
      let m := m.accept idx offset pending
      if pending.isFinished then do
        if ← m.verifyHash sha1 idx pending.data then do
          -- the block that arrived last, not the assembled buffer
          match ← m.fileHandler.writePiece idx data fate with
          | (.error e, file) => pure (.error e, { m with fileHandler := file })
          | (.ok (), file) => do
              let m ← { m with fileHandler := file }.finishPiece idx
              pure (.ok true, m)
        else do
          let m ← m.discardPiece idx
          pure (.ok false, m)
      else pure (.ok true, m)

end Delivering

/-! ## Returning -/

/-- The offsets with the one of the block's piece moved back to the block. -/
def rewind (m : PieceManager) (block : Block) : Except Fault (List Nat) := do
  let next ← readAt m.nextOffsets block.pieceIndex
  if block.offset < next then writeAt m.nextOffsets block.pieceIndex block.offset
  else pure m.nextOffsets

/-- Take back a block that will not be fetched. -/
def returnBlock (m : PieceManager) (block : Block) : Except Fault (Bool × PieceManager) :=
  if m.pendingBlocks.contains block then do
    let nextOffsets ← m.rewind block
    pure (true,
      { m with nextOffsets := nextOffsets, pendingBlocks := m.pendingBlocks.erase block })
  else pure (false, m)

end PieceManager

end BitTorrentClient
