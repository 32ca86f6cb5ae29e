/-
  App/PieceManager/Consistency.lean --- metadata whose fields agree.

  The loader looks at the piece length, the length of the file and the string of hashes
  one by one.  The piece manager takes the number of pieces from the hashes and the
  length of the last piece from the two lengths, so it relies on more: there are as many
  hashes as the file has pieces.  Here is what that buys, and which dictionaries have it.
-/
import BitTorrentClient.App.PieceManager.Completion
import BitTorrentClient.App.PieceManager.PieceLength
import BitTorrentClient.Core.PieceCount

set_option autoImplicit false

namespace BitTorrentClient

open Library Bencode

namespace Loader

/-- The string of hashes is neither too short nor too long for the file, and the lengths
have room in 32 bits. -/
structure LengthsMatch (pieceLength fileLength piecesLength : Nat) : Prop where
  enough : hashLength * fileLength ≤ pieceLength * piecesLength
  noMore : pieceLength * piecesLength < hashLength * (fileLength + pieceLength)
  fits : fileLength ≤ u32 pieceLength ∨
    (pieceLength < 2 ^ 32 ∧ pieceLength ∣ 2 ^ 32 * (fileLength / 2 ^ 32))

/-- The three fields of a dictionary that are lengths or have one match. -/
def Matching (infoDict : Pairs) : Prop :=
  ∃ (pieceLength fileLength : Int64) (pieces : Bytes),
    extractValueFromDict Value.asInt infoDict DictKeys.pieceLength = .ok pieceLength ∧
    extractValueFromDict Value.asInt infoDict DictKeys.length = .ok fileLength ∧
    extractValueFromDict Value.asStr infoDict DictKeys.pieces = .ok pieces ∧
    LengthsMatch pieceLength.toUInt64.toNat fileLength.toUInt64.toNat pieces.length

/-- Of an accepted dictionary it is enough to look at what was made of it. -/
theorem matching_iff {infoDict : Pairs} {info : TorrentMetadata.Info}
    (hinfo : parseInfoDict infoDict = .ok info) :
    Matching infoDict ↔
      LengthsMatch info.pieceLength info.fileLength info.rawPieces.length := by
  obtain ⟨pieceLength, fileLength, hfields⟩ := parseInfoDict_eq_ok hinfo
  rw [hfields.pieceLength_eq, hfields.fileLength_eq]
  constructor
  · rintro ⟨pieceLength', fileLength', pieces, hpieceLength, hlength, hpieces, hmatch⟩
    rw [hfields.pieceLength_at] at hpieceLength
    rw [hfields.length_at] at hlength
    rw [hfields.pieces_at] at hpieces
    rw [Except.ok.inj hpieceLength, Except.ok.inj hlength, Except.ok.inj hpieces]
    exact hmatch
  · intro hmatch
    exact ⟨_, _, _, hfields.pieceLength_at, hfields.length_at, hfields.pieces_at, hmatch⟩

end Loader

namespace TorrentMetadata

variable {info : Info}

/-- What the piece manager relies on: there are as many hashes as the file has pieces, the
pieces cover the file, and no download of a file that is not empty is complete before a
piece was verified. -/
structure Info.Consistent (info : Info) : Prop where
  count : info.pieceHashes.length = chunkCount info.pieceLength info.fileLength
  covers : info.Measured
  verified : ∀ (sha1 : Bytes → Sha1Hash) (metadata : TorrentMetadata) history m,
    metadata.info = info → (PieceManager.machine sha1 metadata).Run history m →
      m.isComplete = true → 1 ≤ info.fileLength →
        ∃ i, ∃ t ∈ history, PieceManager.Finishes sha1 metadata i t

variable {infoDict : Pairs}

/-- The number of hashes, by the length of their string. -/
theorem Info.count_iff (hinfo : Loader.parseInfoDict infoDict = .ok info) :
    info.pieceHashes.length = chunkCount info.pieceLength info.fileLength ↔
      hashLength * info.fileLength ≤ info.pieceLength * info.rawPieces.length ∧
        info.pieceLength * info.rawPieces.length <
          hashLength * (info.fileLength + info.pieceLength) := by
  obtain ⟨_, _, hfields⟩ := Loader.parseInfoDict_eq_ok hinfo
  have hpieces : info.rawPieces.length = hashLength * info.pieceHashes.length :=
    Loader.length_rawPieces hfields.hashes
  have hscale : info.pieceLength * (hashLength * info.pieceHashes.length) =
      hashLength * (info.pieceLength * info.pieceHashes.length) := Nat.mul_left_comm _ _ _
  rw [eq_chunkCount_iff (Loader.pieceLength_pos hinfo), hpieces, hscale]
  simp only [hashLength]
  omega

/-- The pieces cover the file, empty or not, when the lengths fit. -/
theorem Info.covers_iff (hpos : 1 ≤ info.pieceLength)
    (hcount : info.pieceHashes.length = chunkCount info.pieceLength info.fileLength) :
    info.Measured ↔ info.FitsWord := by
  rcases Nat.eq_zero_or_pos info.fileLength with hempty | hfile
  · have hnone : ¬ 0 < info.pieceHashes.length := by
      rw [hcount, lt_chunkCount_iff hpos]
      omega
    refine iff_of_true (Info.measured_of_lengths hpos hcount fun i hi => ?_) (Or.inl ?_)
    · exact absurd (Nat.zero_lt_of_lt hi) hnone
    · omega
  · exact ⟨fun h => h.fitsWord hpos hfile hcount, fun h => h.measured hpos hfile hcount⟩

end TorrentMetadata

namespace PieceManager

variable {sha1 : Bytes → Sha1Hash} {metadata : TorrentMetadata} {m : PieceManager}

/-- A complete download of any pieces has verified the first one. -/
theorem verified_of_isComplete {history : List (Transition PieceManager (Op × Answer))}
    (hrun : (machine sha1 metadata).Run history m) (hcomplete : m.isComplete = true)
    (hpieces : 0 < metadata.numPieces) : ∃ t ∈ history, Finishes sha1 metadata 0 t := by
  have hall := ((bookkeeping_of_run hrun).isComplete_iff (shaped_of_run hrun)).mp hcomplete
  exact finishes_of_run hrun (hall 0 hpieces)

/-- A download of no pieces is complete before it starts. -/
theorem isComplete_new (hnone : metadata.numPieces = 0) (disk : Disk) (tracked : Bool) :
    (new metadata disk tracked).isComplete = true := by
  rw [isComplete, decide_eq_true_eq]
  exact Nat.le_of_eq hnone

end PieceManager

namespace TorrentMetadata

variable {info : Info} {infoDict : Pairs}

/-- **Consistent metadata.**  An accepted info dictionary is what the piece manager takes
it for exactly when its fields match. -/
theorem Info.consistent_iff (hinfo : Loader.parseInfoDict infoDict = .ok info) :
    info.Consistent ↔ Loader.Matching infoDict := by
  have hpos := Loader.pieceLength_pos hinfo
  rw [Loader.matching_iff hinfo]
  constructor
  · intro h
    obtain ⟨henough, hnoMore⟩ := (Info.count_iff hinfo).mp h.count
    exact ⟨henough, hnoMore, (Info.covers_iff hpos h.count).mp h.covers⟩
  · intro h
    have hcount := (Info.count_iff hinfo).mpr ⟨h.enough, h.noMore⟩
    refine ⟨hcount, (Info.covers_iff hpos hcount).mpr h.fits, ?_⟩
    intro sha1 metadata history m hmetadata hrun hcomplete hfile
    have hpieces : 0 < metadata.numPieces := by
      rw [numPieces, hmetadata, hcount]
      exact chunkCount_pos hpos hfile
    exact ⟨0, PieceManager.verified_of_isComplete hrun hcomplete hpieces⟩

/-- Three bytes in pieces of two, with two hashes. -/
theorem Info.consistent_iff_threeBytes :
    ∃ info, Loader.parseInfoDict (Loader.fourKeys 3 (ascii "f") 2 (List.replicate 40 0)) =
      .ok info ∧ info.Consistent := by
  have hinfo : Loader.parseInfoDict (Loader.fourKeys 3 (ascii "f") 2 (List.replicate 40 0)) =
      .ok _ := rfl
  refine ⟨_, hinfo, (Info.consistent_iff hinfo).mpr ⟨2, 3, _, rfl, rfl, rfl, ?_⟩⟩
  exact ⟨by decide, by decide, Or.inr ⟨by decide, 0, rfl⟩⟩

/-- One byte without a hash is accepted, and complete before anything was verified. -/
theorem Info.not_consistent_noHashes :
    ∃ info, Loader.parseInfoDict (Loader.fourKeys 1 (ascii "f") 1 []) = .ok info ∧
      info.fileLength = 1 ∧ info.pieceHashes.length = 0 ∧
      chunkCount info.pieceLength info.fileLength = 1 ∧
      (∀ (metadata : TorrentMetadata) disk tracked, metadata.info = info →
        (PieceManager.new metadata disk tracked).isComplete = true) ∧
      ¬ info.Consistent := by
  refine ⟨_, rfl, rfl, rfl, rfl, fun metadata disk tracked hmetadata => ?_, fun h => ?_⟩
  · refine PieceManager.isComplete_new ?_ disk tracked
    rw [numPieces, hmetadata]
    rfl
  · exact absurd h.count (by decide)

end TorrentMetadata

end BitTorrentClient
