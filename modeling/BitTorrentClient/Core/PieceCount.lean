/-
  Core/PieceCount.lean --- how many pieces a torrent that was loaded can have.

  The loader refuses files of more than ten megabytes, and the string of all hashes is
  part of the file.  The client indexes pieces with 32 bits, and this is why it may.
-/
import BitTorrentClient.Core.InfoHash

set_option autoImplicit false

namespace BitTorrentClient.Loader

open Library Bencode Bencode.Detail

/-- A string that is read is part of the data. -/
theorem length_le_of_reads {data s : Bytes} {p d q : Nat} {strings : List Nat}
    (h : Reads data p d (.value (.str s)) q strings) : s.length ≤ data.length := by
  cases h with
  | str _ _ _ _ =>
    rw [length_slice]
    omega

theorem length_of_parsePieceHashes {piecesStr : Bytes} {hashes : List Sha1Hash}
    (h : parsePieceHashes piecesStr = .ok hashes) :
    hashes.length = piecesStr.length / hashLength := by
  unfold parsePieceHashes at h
  split at h
  · cases h
  · cases h
    rw [List.length_map, List.length_range]

/-- No bytes are left over. -/
theorem length_rawPieces {piecesStr : Bytes} {hashes : List Sha1Hash}
    (h : parsePieceHashes piecesStr = .ok hashes) :
    piecesStr.length = hashLength * hashes.length := by
  rw [length_of_parsePieceHashes h]
  unfold parsePieceHashes at h
  split at h
  · cases h
  · rename_i hdvd
    have hmod : piecesStr.length % hashLength = 0 := not_not.mp hdvd
    exact (Nat.mul_div_cancel' (Nat.dvd_of_mod_eq_zero hmod)).symm

/-- The string of all hashes is part of the torrent. -/
theorem rawPieces_length_le {sha1 : Bytes → Sha1Hash} {fuel : Nat} {torrentData : Bytes}
    {root : Pairs} {metadata : TorrentMetadata} (hroot : parseRootDict fuel torrentData = .ok root)
    (hmetadata : parseRootMetadata sha1 root = .ok metadata) :
    metadata.info.rawPieces.length ≤ torrentData.length := by
  obtain ⟨pos, q, infoDict, hat, hinfo⟩ := info_valueAt hroot hmetadata
  obtain ⟨strings, hreads⟩ := hat.reads
  obtain ⟨_, _, hfields⟩ := parseInfoDict_eq_ok hinfo
  obtain ⟨pair, hfind, hstr⟩ := extractValueFromDict_eq_ok.mp hfields.pieces_at
  cases hreads with
  | dict _ _ hpairs =>
    rw [find_dictOf] at hfind
    obtain ⟨pos', q', hat'⟩ := valueAt_of_find hpairs hfind
    obtain ⟨strings', hreads'⟩ := hat'.reads
    have hvalue : pair.2 = .str metadata.info.rawPieces := by
      cases hpair : pair.2 with
      | str bytes =>
        rw [hpair] at hstr
        rw [Option.some.inj hstr]
      | _ => simp [hpair, Value.asStr] at hstr
    rw [hvalue] at hreads'
    exact length_le_of_reads hreads'

/-- A loaded torrent has no more pieces than hashes fit into ten megabytes. -/
theorem numPieces_le {sha1 : Bytes → Sha1Hash} {fuel : Nat} {torrentData : Bytes} {root : Pairs}
    {metadata : TorrentMetadata} (hroot : parseRootDict fuel torrentData = .ok root)
    (hmetadata : parseRootMetadata sha1 root = .ok metadata) :
    metadata.numPieces ≤ maxTorrentSize / hashLength := by
  have hdata := (parseRootDict_eq_ok hroot).1
  have hraw := rawPieces_length_le hroot hmetadata
  obtain ⟨_, _, infoDict, _, hinfo⟩ := info_valueAt hroot hmetadata
  obtain ⟨_, _, hfields⟩ := parseInfoDict_eq_ok hinfo
  rw [TorrentMetadata.numPieces, length_of_parsePieceHashes hfields.hashes]
  exact Nat.div_le_div_right (Nat.le_trans hraw hdata)

end BitTorrentClient.Loader
