/-
  App/FileHandler.lean --- the output file (`app/file_handler.cpp`).

  The stream has two flags: whether it is open, which the constructor settles
  once, and whether it is good.  A device failure clears the second one, and
  nothing in the client ever sets it again: from then on `seekp`, `write` and
  `flush` do nothing and report nothing.  How the device behaves is not the
  code's to decide, so every write takes a `DiskFate`.
-/
import BitTorrentClient.Core.Failure
import BitTorrentClient.Library.ByteRange

set_option autoImplicit false

namespace BitTorrentClient

open Library

/-- What the device does with one write. -/
inductive DiskFate where
  /-- every byte is written -/
  | written
  /-- the device fails after this many bytes -/
  | failsAfter (bytes : Nat)
  deriving DecidableEq, Repr, Inhabited

/-- The device takes all of a write of this many bytes. -/
def DiskFate.Takes (fate : DiskFate) (count : Nat) : Prop :=
  match fate with
  | .written => True
  | .failsAfter bytes => count ≤ bytes

/-- What the file system offers at the path when the handler is built. -/
structure Disk where
  /-- the bytes of the file, when it exists and opens for reading and writing -/
  existing : Option Bytes
  /-- whether a missing file can be created and reopened -/
  creatable : Bool
  deriving DecidableEq, Repr, Inhabited

/-- The handler of the output file. -/
structure FileHandler where
  isOpen : Bool
  good : Bool
  content : Bytes
  /-- a 64-bit unsigned integer -/
  pieceSize : Nat
  deriving DecidableEq, Repr

namespace FileHandler

/-- The constructor: an existing file is opened as it is, a missing one is
created empty and reopened. -/
def new (disk : Disk) (pieceSize : Nat) : FileHandler where
  isOpen := disk.existing.isSome || disk.creatable
  good := disk.existing.isSome || disk.creatable
  content := disk.existing.getD []
  pieceSize := pieceSize

/-- The file position `seekp` is given: a product of two 64-bit integers. -/
def position (file : FileHandler) (index : Nat) : Nat := u64 (index * file.pieceSize)

/-- The `seekp`, `write`, `flush` sequence on an open stream.  A position past the
largest signed offset cannot be sought. -/
def store (file : FileHandler) (index : Nat) (data : Bytes) (fate : DiskFate) : FileHandler :=
  if !file.good then file
  else if 2 ^ 63 ≤ file.position index then { file with good := false }
  else
    match fate with
    | .written => { file with content := overwrite 0 file.content (file.position index) data }
    | .failsAfter bytes =>
        { file with
          content := overwrite 0 file.content (file.position index) (data.take bytes)
          good := false }

/-- Write one piece at its place, throwing when the stream is not open. -/
def writePiece (file : FileHandler) (index : Nat) (data : Bytes) (fate : DiskFate) :
    Except Fault (Except StdException Unit × FileHandler) :=
  if file.pieceSize < data.length then .error .assertion
  else if !file.isOpen then .ok (.error (.runtimeError "Failed to write to file!"), file)
  else .ok (.ok (), file.store index data fate)

/-! ## What reaches the device -/

/-- The bytes of a write that the device takes. -/
def transferred (file : FileHandler) (index : Nat) (data : Bytes) (fate : DiskFate) : Bytes :=
  if !file.good then []
  else if 2 ^ 63 ≤ file.position index then []
  else
    match fate with
    | .written => data
    | .failsAfter bytes => data.take bytes

/-- They are all that a write changes in the file. -/
theorem store_content (file : FileHandler) (index : Nat) (data : Bytes) (fate : DiskFate) :
    (file.store index data fate).content =
      overwrite 0 file.content (file.position index) (file.transferred index data fate) := by
  unfold store transferred
  split
  · rw [overwrite_nil]
  · split
    · rw [overwrite_nil]
    · cases fate <;> rfl

/-- They are a first part of the data. -/
theorem exists_transferred_eq_take (file : FileHandler) (index : Nat) (data : Bytes)
    (fate : DiskFate) : ∃ n, file.transferred index data fate = data.take n := by
  unfold transferred
  split
  · exact ⟨0, List.take_zero.symm⟩
  · split
    · exact ⟨0, List.take_zero.symm⟩
    · cases fate with
      | written => exact ⟨data.length, List.take_length.symm⟩
      | failsAfter bytes => exact ⟨bytes, rfl⟩

/-- A write that is not empty reaches the device as a whole exactly when the stream was
good, the position can be sought and the device takes all the bytes. -/
theorem transferred_eq_iff {file : FileHandler} {index : Nat} {data : Bytes} {fate : DiskFate}
    (hdata : data ≠ []) :
    file.transferred index data fate = data ↔
      file.good = true ∧ file.position index < 2 ^ 63 ∧ fate.Takes data.length := by
  unfold transferred
  split
  · rename_i hbad
    refine iff_of_false (fun h => hdata h.symm) fun h => ?_
    simp [h.1] at hbad
  · rename_i hgood
    have hgood' : file.good = true := by simpa using hgood
    split
    · rename_i hfar
      exact iff_of_false (fun h => hdata h.symm) fun h => Nat.not_lt.mpr hfar h.2.1
    · rename_i hnear
      rw [and_iff_right hgood', and_iff_right (Nat.lt_of_not_le hnear)]
      cases fate with
      | written => exact iff_of_true rfl trivial
      | failsAfter bytes =>
        constructor
        · intro hall
          have hlen := congrArg List.length hall
          rw [List.length_take] at hlen
          change data.length ≤ bytes
          omega
        · exact List.take_of_length_le

/-! ## What a write leaves alone -/

@[simp] theorem store_pieceSize (file : FileHandler) (index : Nat) (data : Bytes)
    (fate : DiskFate) : (file.store index data fate).pieceSize = file.pieceSize := by
  unfold store
  split
  · rfl
  · split
    · rfl
    · cases fate <;> rfl

/-- A stream that is still good after a write took the whole of it. -/
theorem store_of_good {file : FileHandler} {index : Nat} {data : Bytes} {fate : DiskFate}
    (h : (file.store index data fate).good = true) :
    file.good = true ∧ (file.store index data fate).content =
      overwrite 0 file.content (file.position index) data := by
  unfold store at h ⊢
  split at h
  · rename_i hbad
    simp_all
  · rename_i hgood
    split at h
    · simp at h
    · rename_i hsought
      cases fate with
      | written =>
        refine ⟨by simpa using hgood, ?_⟩
        rw [if_neg hgood, if_neg hsought]
      | failsAfter bytes => simp at h

theorem transferred_of_good {file : FileHandler} {index : Nat} {data : Bytes} {fate : DiskFate}
    (h : (file.store index data fate).good = true) :
    file.transferred index data fate = data := by
  unfold store at h
  unfold transferred
  split at h
  · rename_i hbad
    simp_all
  · rename_i hgood
    rw [if_neg hgood]
    split at h
    · simp at h
    · rename_i hsought
      rw [if_neg hsought]
      cases fate with
      | written => rfl
      | failsAfter bytes => simp at h

/-- A write that threw found the stream closed and changed nothing. -/
theorem writePiece_threw {file file' : FileHandler} {index : Nat} {data : Bytes}
    {fate : DiskFate} {e : StdException}
    (h : file.writePiece index data fate = .ok (.error e, file')) :
    file.isOpen = false ∧ file' = file := by
  unfold writePiece at h
  split at h
  · simp at h
  · split at h
    · rename_i hclosed
      simp only [Except.ok.injEq, Prod.mk.injEq] at h
      exact ⟨by simpa using hclosed, h.2.symm⟩
    · simp at h

/-- A write that returned went to the stream. -/
theorem writePiece_returned {file file' : FileHandler} {index : Nat} {data : Bytes}
    {fate : DiskFate} (h : file.writePiece index data fate = .ok (.ok (), file')) :
    file.isOpen = true ∧ file' = file.store index data fate := by
  unfold writePiece at h
  split at h
  · simp at h
  · split at h
    · simp at h
    · rename_i hopen
      simp only [Except.ok.injEq, Prod.mk.injEq, true_and] at h
      exact ⟨by simpa using hopen, h.symm⟩

end FileHandler

end BitTorrentClient
