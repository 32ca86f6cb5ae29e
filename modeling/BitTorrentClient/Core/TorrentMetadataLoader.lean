/-
  Core/TorrentMetadataLoader.lean --- from a torrent file to its metadata
  (`core/torrent_metadata_loader.cpp`).

  The parsed root dictionary is taken apart field by field.  The hash of the info
  dictionary is not computed from the file: a dictionary is rebuilt from four of
  its fields and encoded again.  SHA1 is a parameter.
-/
import BitTorrentClient.Core.TorrentMetadata
import BitTorrentClient.Core.Bencode.Outcome
import BitTorrentClient.Library.ByteRange

set_option autoImplicit false

namespace BitTorrentClient

open Library Bencode

namespace Bencode

/-- `std::holds_alternative` and `std::get`, for each alternative but lists. -/
def Value.asInt : Value → Option Int64
  | .int n => some n
  | _ => none

def Value.asStr : Value → Option Bytes
  | .str bytes => some bytes
  | _ => none

def Value.asDict : Value → Option Pairs
  | .dict values => some values
  | _ => none

/-- The value of a key, if it is there and of the right kind. -/
def extractValueFromDict {α : Type} (alternative : Value → Option α) (dict : Pairs)
    (key : String) : Except StdException α :=
  match (Keyed.find Prod.fst (ascii key) dict).bind fun pair => alternative pair.2 with
  | some a => .ok a
  | none => .error (.runtimeError ("Key '" ++ key ++ "' not found or wrong type"))

end Bencode

namespace DictKeys

def comment : String := "comment"
def announce : String := "announce"
def info : String := "info"
def pieceLength : String := "piece length"
def length : String := "length"
def name : String := "name"
def pieces : String := "pieces"
def creationDate : String := "creation date"

end DictKeys

namespace Loader

/-- Ten megabytes. -/
def maxTorrentSize : Nat := 10 * 1024 * 1024

/-- Parse the raw torrent data and return the root dictionary. -/
def parseRootDict (fuel : Nat) (torrentData : Bytes) : Except Stop Pairs :=
  if maxTorrentSize < torrentData.length then
    throwing (.runtimeError "Torrent file exceeds maximum allowed size")
  else do
    let value ← Bencode.parse fuel torrentData
    match value with
    | .dict values => pure values
    | _ => throwing (.runtimeError "Invalid torrent file format")

/-- The hash at an index of the string of all hashes. -/
def hashAt (piecesStr : Bytes) (i : Nat) : Sha1Hash :=
  ⟨(slice piecesStr (i * hashLength) hashLength).takeD hashLength 0, List.takeD_length _ _ _⟩

/-- Cut the string of all hashes into hashes. -/
def parsePieceHashes (piecesStr : Bytes) : Except StdException (List Sha1Hash) :=
  if piecesStr.length % hashLength ≠ 0 then
    .error (.runtimeError "Invalid pieces string length in torrent metadata")
  else .ok ((List.range (piecesStr.length / hashLength)).map (hashAt piecesStr))

/-- Take the info dictionary apart. -/
def parseInfoDict (infoDict : Pairs) : Except StdException TorrentMetadata.Info := do
  let pieceLength ← extractValueFromDict Value.asInt infoDict DictKeys.pieceLength
  if pieceLength ≤ 0 then
    .error (.runtimeError "Invalid piece length in torrent metadata")
  else do
    let piecesStr ← extractValueFromDict Value.asStr infoDict DictKeys.pieces
    let pieceHashes ← parsePieceHashes piecesStr
    let fileLength ← extractValueFromDict Value.asInt infoDict DictKeys.length
    if fileLength < 0 then
      .error (.runtimeError "Invalid file length in torrent metadata")
    else do
      let fileName ← extractValueFromDict Value.asStr infoDict DictKeys.name
      pure
        { pieceHashes := pieceHashes
          rawPieces := piecesStr
          pieceLength := pieceLength.toUInt64.toNat
          fileLength := fileLength.toUInt64.toNat
          fileName := fileName }

/-- The dictionary that is hashed: four fields, assigned one after another. -/
def rebuiltInfoDict (info : TorrentMetadata.Info) : Pairs :=
  let infoDict : Pairs := []
  let infoDict := Keyed.assign Prod.fst
    (ascii DictKeys.pieceLength, .int info.pieceLength.toUInt64.toInt64) infoDict
  let infoDict := Keyed.assign Prod.fst
    (ascii DictKeys.length, .int info.fileLength.toUInt64.toInt64) infoDict
  let infoDict := Keyed.assign Prod.fst (ascii DictKeys.name, .str info.fileName) infoDict
  Keyed.assign Prod.fst (ascii DictKeys.pieces, .str info.rawPieces) infoDict

/-- The octets that are hashed. -/
def hashedInfo (info : TorrentMetadata.Info) : Bytes := encode (.dict (rebuiltInfoDict info))

section Hashing

variable (sha1 : Bytes → Sha1Hash)

/-- The hash by which trackers and peers know the torrent. -/
def calculateInfoHash (info : TorrentMetadata.Info) : Sha1Hash := sha1 (hashedInfo info)

/-- Take the root dictionary apart. -/
def parseRootMetadata (rootDict : Pairs) : Except StdException TorrentMetadata := do
  let comment ← extractValueFromDict Value.asStr rootDict DictKeys.comment
  let announce ← extractValueFromDict Value.asStr rootDict DictKeys.announce
  let creationDate ← extractValueFromDict Value.asInt rootDict DictKeys.creationDate
  let infoDict ← extractValueFromDict Value.asDict rootDict DictKeys.info
  let info ← parseInfoDict infoDict
  pure
    { announce := announce
      comment := comment
      creationDate := creationDate.toUInt64.toNat
      infoHash := calculateInfoHash sha1 info
      info := info }

end Hashing

/-! ## What was extracted -/

theorem extractValueFromDict_eq_ok {α : Type} {alternative : Value → Option α} {dict : Pairs}
    {key : String} {a : α} :
    extractValueFromDict alternative dict key = .ok a ↔
      ∃ pair, Keyed.find Prod.fst (ascii key) dict = some pair ∧ alternative pair.2 = some a := by
  unfold extractValueFromDict
  split
  · rename_i b h
    obtain ⟨pair, hpair, hb⟩ := Option.bind_eq_some_iff.mp h
    simp [hpair, hb]
  · rename_i h
    simp only [reduceCtorEq, false_iff, not_exists, not_and]
    intro pair hpair ha
    rw [hpair, Option.bind_some, ha] at h
    simp at h

/-- The four fields of an info dictionary, and what they are turned into. -/
structure InfoFields (infoDict : Pairs) (info : TorrentMetadata.Info)
    (pieceLength fileLength : Int64) : Prop where
  pieceLength_at : extractValueFromDict Value.asInt infoDict DictKeys.pieceLength = .ok pieceLength
  pieces_at : extractValueFromDict Value.asStr infoDict DictKeys.pieces = .ok info.rawPieces
  length_at : extractValueFromDict Value.asInt infoDict DictKeys.length = .ok fileLength
  name_at : extractValueFromDict Value.asStr infoDict DictKeys.name = .ok info.fileName
  hashes : parsePieceHashes info.rawPieces = .ok info.pieceHashes
  pieceLength_eq : info.pieceLength = pieceLength.toUInt64.toNat
  fileLength_eq : info.fileLength = fileLength.toUInt64.toNat
  pieceLength_pos : 0 < pieceLength
  fileLength_nonneg : 0 ≤ fileLength

theorem parseInfoDict_eq_ok {infoDict : Pairs} {info : TorrentMetadata.Info}
    (h : parseInfoDict infoDict = .ok info) :
    ∃ pieceLength fileLength, InfoFields infoDict info pieceLength fileLength := by
  unfold parseInfoDict at h
  obtain ⟨pieceLength, hpl, h⟩ := bind_eq_ok.mp h
  split at h
  · simp at h
  · rename_i hpos
    obtain ⟨pieces, hpieces, h⟩ := bind_eq_ok.mp h
    obtain ⟨hashes, hhashes, h⟩ := bind_eq_ok.mp h
    obtain ⟨fileLength, hlen, h⟩ := bind_eq_ok.mp h
    split at h
    · simp at h
    · rename_i hnonneg
      obtain ⟨name, hname, h⟩ := bind_eq_ok.mp h
      cases h
      exact ⟨pieceLength, fileLength, hpl, hpieces, hlen, hname, hhashes, rfl, rfl,
        Int64.not_le.mp hpos, Int64.not_lt.mp hnonneg⟩

theorem parseRootMetadata_eq_ok {sha1 : Bytes → Sha1Hash} {rootDict : Pairs}
    {metadata : TorrentMetadata} (h : parseRootMetadata sha1 rootDict = .ok metadata) :
    metadata.infoHash = sha1 (hashedInfo metadata.info) ∧
      ∃ infoDict, extractValueFromDict Value.asDict rootDict DictKeys.info = .ok infoDict ∧
        parseInfoDict infoDict = .ok metadata.info := by
  unfold parseRootMetadata at h
  obtain ⟨comment, _, h⟩ := bind_eq_ok.mp h
  obtain ⟨announce, _, h⟩ := bind_eq_ok.mp h
  obtain ⟨creationDate, _, h⟩ := bind_eq_ok.mp h
  obtain ⟨infoDict, hinfoDict, h⟩ := bind_eq_ok.mp h
  obtain ⟨info, hinfo, h⟩ := bind_eq_ok.mp h
  cases h
  exact ⟨rfl, infoDict, hinfoDict, hinfo⟩

theorem parseRootDict_eq_ok {fuel : Nat} {torrentData : Bytes} {root : Pairs}
    (h : parseRootDict fuel torrentData = .ok root) :
    torrentData.length ≤ maxTorrentSize ∧ Bencode.parse fuel torrentData = .ok (.dict root) := by
  unfold parseRootDict at h
  split at h
  · simp [throwing] at h
  · rename_i hsize
    obtain ⟨value, hvalue, h⟩ := bind_eq_ok.mp h
    split at h
    · cases h
      exact ⟨Nat.le_of_not_lt hsize, hvalue⟩
    · simp [throwing] at h

end Loader

end BitTorrentClient
