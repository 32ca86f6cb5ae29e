/-
  App/PieceManager/PieceLength.lean --- the lengths of the pieces.

  A file is cut into pieces of one length, of which the last may be shorter.  Both
  lengths have 64 bits in the metadata and 32 bits in `_getPieceLength`.  What is cut
  off does not matter if the file fits into a single piece all the same, or if the
  piece length divides it.
-/
import BitTorrentClient.App.PieceManager.Geometry
import BitTorrentClient.Core.InfoHash
import BitTorrentClient.Library.Chunks

set_option autoImplicit false

namespace BitTorrentClient

open Library

/-- An accepted piece length is positive. -/
theorem Loader.pieceLength_pos {infoDict : Bencode.Pairs} {info : TorrentMetadata.Info}
    (h : Loader.parseInfoDict infoDict = .ok info) : 1 ≤ info.pieceLength := by
  obtain ⟨pieceLength, _, hfields⟩ := Loader.parseInfoDict_eq_ok h
  have hpos := Int64.lt_iff_toInt_lt.mp hfields.pieceLength_pos
  have hclamp := Int64.toNat_toUInt64_of_le (Int64.le_of_lt hfields.pieceLength_pos)
  have hint := Int64.cast_toNatClampNeg pieceLength (Int64.le_of_lt hfields.pieceLength_pos)
  rw [hfields.pieceLength_eq, hclamp]
  simp only [Int64.toInt_zero] at hpos
  omega

namespace TorrentMetadata

/-- `_getPieceLength` never divides by zero, every piece is as long as there is room for,
and the pieces together are as long as the file. -/
structure Info.Measured (info : Info) : Prop where
  divides : ∀ i, info.getPieceLength i ≠ .error .divisionByZero
  lengths : ∀ i < info.pieceHashes.length,
    info.getPieceLength i = .ok (min info.pieceLength (info.fileLength - i * info.pieceLength))
  total : ∃ lens, (List.range info.pieceHashes.length).mapM info.getPieceLength = .ok lens ∧
    lens.sum = info.fileLength

/-- The file fits into the 32 bits of a single piece, or the piece length has 32 bits and
divides what they cut off the length of the file. -/
def Info.FitsWord (info : Info) : Prop :=
  info.fileLength ≤ u32 info.pieceLength ∨
    (info.pieceLength < 2 ^ 32 ∧ info.pieceLength ∣ 2 ^ 32 * (info.fileLength / 2 ^ 32))

variable {info : Info} {i : Nat}

/-- The last piece, by the arithmetic of `_getPieceLength`. -/
theorem Info.getPieceLength_last (hlast : i + 1 = info.pieceHashes.length)
    (hpos : u32 info.pieceLength ≠ 0) :
    info.getPieceLength i = .ok (if u32 info.fileLength % u32 info.pieceLength ≠ 0 then
      u32 info.fileLength % u32 info.pieceLength else u32 info.pieceLength) := by
  simp only [Info.getPieceLength, if_pos hlast, if_neg hpos]
  split <;> rfl

theorem Info.getPieceLength_other (hother : i + 1 ≠ info.pieceHashes.length) :
    info.getPieceLength i = .ok (u32 info.pieceLength) := by
  simp only [Info.getPieceLength, if_neg hother]

/-- The lengths decide the rest. -/
theorem Info.measured_of_lengths (hpos : 1 ≤ info.pieceLength)
    (hcount : info.pieceHashes.length = chunkCount info.pieceLength info.fileLength)
    (hlengths : ∀ i < info.pieceHashes.length,
      info.getPieceLength i = .ok (chunkLen info.pieceLength info.fileLength i)) :
    info.Measured := by
  refine ⟨fun i hfault => ?_, hlengths, _,
    mapM_ok fun i hi => hlengths i (List.mem_range.mp hi), ?_⟩
  · by_cases hlast : i + 1 = info.pieceHashes.length
    · rw [hlengths i (by omega)] at hfault
      cases hfault
    · rw [Info.getPieceLength_other hlast] at hfault
      cases hfault
  · rw [hcount]
    exact sum_chunkLen hpos

/-- Lengths that fit leave no trace of the truncation. -/
theorem Info.FitsWord.measured (h : info.FitsWord) (hpos : 1 ≤ info.pieceLength)
    (hfile : 1 ≤ info.fileLength)
    (hcount : info.pieceHashes.length = chunkCount info.pieceLength info.fileLength) :
    info.Measured := by
  refine Info.measured_of_lengths hpos hcount fun i hi => ?_
  have hle := u32_le info.pieceLength
  have hlt := u32_lt info.pieceLength
  rcases h with hsingle | ⟨hword, hdvd⟩
  · -- one piece, which is the whole file
    have hfew : ¬ 1 < info.pieceHashes.length := by
      rw [hcount, lt_chunkCount_iff hpos]
      omega
    obtain rfl : i = 0 := by omega
    have hfileWord : u32 info.fileLength = info.fileLength := u32_of_lt (by omega)
    rw [Info.getPieceLength_last (by omega) (by omega), hfileWord, chunkLen]
    rcases Nat.lt_or_ge info.fileLength (u32 info.pieceLength) with hless | hfull
    · rw [Nat.mod_eq_of_lt hless, if_pos (by omega)]
      congr 1
      omega
    · obtain heq : info.fileLength = u32 info.pieceLength := by omega
      rw [heq, Nat.mod_self, if_neg (by simp)]
      congr 1
      omega
  · have hpiece : u32 info.pieceLength = info.pieceLength := u32_of_lt hword
    by_cases hlast : i + 1 = info.pieceHashes.length
    · have hsplit : info.fileLength =
          u32 info.fileLength + 2 ^ 32 * (info.fileLength / 2 ^ 32) := by
        rw [u32]
        omega
      have hmod : u32 info.fileLength % info.pieceLength = info.fileLength % info.pieceLength := by
        obtain ⟨c, hc⟩ := hdvd
        rw [hc] at hsplit
        calc u32 info.fileLength % info.pieceLength
            = (u32 info.fileLength + info.pieceLength * c) % info.pieceLength :=
              (Nat.add_mul_mod_self_left _ _ _).symm
          _ = info.fileLength % info.pieceLength := by rw [← hsplit]
      rw [Info.getPieceLength_last hlast (by omega), hpiece, hmod,
        chunkLen_last hpos (hlast.trans hcount)]
    · rw [Info.getPieceLength_other hlast, hpiece, chunkLen_of_lt hpos (by omega)]

/-- Lengths that do not fit show. -/
theorem Info.Measured.fitsWord (h : info.Measured) (hpos : 1 ≤ info.pieceLength)
    (hfile : 1 ≤ info.fileLength)
    (hcount : info.pieceHashes.length = chunkCount info.pieceLength info.fileLength) :
    info.FitsWord := by
  have hsome : 0 < info.pieceHashes.length := by
    rw [hcount]
    exact chunkCount_pos hpos hfile
  obtain ⟨i, hlast⟩ : ∃ i, i + 1 = info.pieceHashes.length :=
    ⟨info.pieceHashes.length - 1, by omega⟩
  have hword : u32 info.pieceLength ≠ 0 := by
    intro hzero
    refine h.divides i ?_
    simp only [Info.getPieceLength, if_pos hlast, if_pos hzero]
  have hend := h.lengths i (by omega)
  rw [Info.getPieceLength_last hlast hword] at hend
  have hend := Except.ok.inj hend
  have hmod := Nat.mod_lt (u32 info.fileLength) (Nat.pos_of_ne_zero hword)
  cases i with
  | zero =>
    have hone : ¬ 1 * info.pieceLength < info.fileLength := by
      rw [← lt_chunkCount_iff hpos, ← hcount]
      omega
    refine Or.inl ?_
    split at hend <;> omega
  | succ i =>
    have hfirst := h.lengths 0 hsome
    have hfull : chunkLen info.pieceLength info.fileLength 0 = info.pieceLength :=
      chunkLen_of_lt hpos (by omega)
    rw [Info.getPieceLength_other (by omega)] at hfirst
    have hpiece : u32 info.pieceLength = info.pieceLength :=
      (Except.ok.inj hfirst).trans hfull
    refine Or.inr ⟨hpiece ▸ u32_lt _, ?_⟩
    have hchunk := chunkLen_last hpos (hlast.trans hcount)
    rw [chunkLen, ← hend, hpiece] at hchunk
    rw [hpiece] at hmod
    have hsame : info.fileLength % info.pieceLength = u32 info.fileLength % info.pieceLength := by
      have hmod' := Nat.mod_lt info.fileLength hpos
      split at hchunk <;> split at hchunk <;> omega
    have hdvd := Nat.sub_mod_eq_zero_of_mod_eq hsame
    have hcut : info.fileLength - u32 info.fileLength = 2 ^ 32 * (info.fileLength / 2 ^ 32) := by
      rw [u32]
      omega
    rw [hcut] at hdvd
    exact Nat.dvd_of_mod_eq_zero hdvd

/-- **Piece geometry.**  For every info dictionary that is accepted, with a file that is
not empty and as many hashes as the file has pieces, the pieces are as long as they
should be exactly when the lengths fit. -/
theorem Info.measured_iff {infoDict : Bencode.Pairs}
    (hinfo : Loader.parseInfoDict infoDict = .ok info) (hfile : 1 ≤ info.fileLength)
    (hcount : info.pieceHashes.length = chunkCount info.pieceLength info.fileLength) :
    info.Measured ↔ info.FitsWord := by
  have hpos := Loader.pieceLength_pos hinfo
  exact ⟨fun h => h.fitsWord hpos hfile hcount, fun h => h.measured hpos hfile hcount⟩

/-- A file of three bytes in pieces of two. -/
theorem Info.measured_iff_threeBytes :
    ∃ info, Loader.parseInfoDict (Loader.fourKeys 3 (ascii "f") 2
        (List.replicate 40 0)) = .ok info ∧ info.Measured := by
  have hinfo : Loader.parseInfoDict (Loader.fourKeys 3 (ascii "f") 2 (List.replicate 40 0)) =
      .ok _ := rfl
  refine ⟨_, hinfo, (Info.measured_iff hinfo (by decide) rfl).mpr (Or.inr ⟨by decide, ?_⟩)⟩
  exact ⟨0, rfl⟩

/-- With a piece length of `2 ^ 32`, the divisor is zero. -/
theorem Info.not_measured_zeroDivisor :
    ∃ info, Loader.parseInfoDict (Loader.fourKeys 1 (ascii "f") 4294967296
        (List.replicate 20 0)) = .ok info ∧
      info.fileLength = 1 ∧ info.pieceHashes.length = chunkCount info.pieceLength info.fileLength ∧
      info.getPieceLength 0 = .error .divisionByZero ∧ ¬ info.Measured := by
  refine ⟨_, rfl, rfl, rfl, rfl, fun h => ?_⟩
  exact h.divides 0 rfl

/-- Six gigabytes in pieces of three: the last piece comes out as two gigabytes long. -/
example : (Loader.parseInfoDict (Loader.fourKeys 6442450944 (ascii "f") 3221225472
    (List.replicate 40 0))).map (fun info => info.getPieceLength 1) = .ok (.ok 2147483648) := rfl

end TorrentMetadata

end BitTorrentClient
