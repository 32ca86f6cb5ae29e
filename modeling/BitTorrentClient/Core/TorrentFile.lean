/-
  Core/TorrentFile.lean --- from a path to the metadata of a torrent
  (`parseTorrentData` of `core/torrent_metadata_loader.cpp`).

  The file is read as a whole and handed to the parser.  What the loader keeps of it is
  enough to write a torrent file that loads to the same metadata, and what it hashes is
  enough to tell one info dictionary from another.
-/
import BitTorrentClient.Core.InfoHash
import BitTorrentClient.Core.Bencode.Unambiguous

set_option autoImplicit false

namespace BitTorrentClient

open Library Bencode

/-- What the file system does with a path that is opened for reading. -/
inductive FileOutcome where
  /-- there is no such file -/
  | missing
  /-- the stream does not open -/
  | unopened
  /-- the position of the end is not known -/
  | unsized
  /-- fewer octets come than there are -/
  | unread
  | read (data : Bytes)
  deriving DecidableEq, Repr, Inhabited

namespace Loader

/-- Read a torrent file as a whole. -/
def loadTorrentFile (path : String) : FileOutcome → Except StdException Bytes
  | .missing => .error (.runtimeError ("Torrent file does not exist: " ++ path))
  | .unopened => .error (.runtimeError ("Failed to open torrent file: " ++ path))
  | .unsized => .error (.runtimeError ("Failed to determine file size: " ++ path))
  | .unread => .error (.runtimeError "Failed to read...")
  | .read data => .ok data

/-- Load a torrent. -/
def parseTorrentData (sha1 : Bytes → Sha1Hash) (fuel : Nat) (path : String)
    (file : FileOutcome) : Except Stop TorrentMetadata := do
  let torrentData ← (loadTorrentFile path file).mapError .throws
  let rootDict ← parseRootDict fuel torrentData
  (parseRootMetadata sha1 rootDict).mapError .throws

/-! ## Writing what was loaded -/

/-- The root dictionary of a torrent with this metadata. -/
def rootOf (metadata : TorrentMetadata) : Pairs :=
  [(ascii DictKeys.announce, .str metadata.announce),
    (ascii DictKeys.comment, .str metadata.comment),
    (ascii DictKeys.creationDate, .int metadata.creationDate.toUInt64.toInt64),
    (ascii DictKeys.info, .dict (rebuiltInfoDict metadata.info))]

theorem rootOf_wf (metadata : TorrentMetadata) : (Value.dict (rootOf metadata)).WF := by
  refine ⟨?_, trivial, trivial, trivial, ?_, trivial⟩
  · simp only [rootOf, Keyed, List.pairwise_cons, List.mem_cons, List.not_mem_nil, or_false,
      forall_eq_or_imp, forall_eq, List.Pairwise.nil, and_true, IsEmpty.forall_iff, implies_true]
    decide
  · rw [rebuiltInfoDict_eq]
    exact fourKeys_wf _ _ _ _

theorem rootOf_height (metadata : TorrentMetadata) :
    (Value.dict (rootOf metadata)).height ≤ Detail.maxRecursionDepth := by
  rw [rootOf, rebuiltInfoDict_eq]
  simp [Value.height, heightPairs, fourKeys, Detail.maxRecursionDepth]

/-- The info dictionary is taken apart into what it was rebuilt from. -/
theorem parseInfoDict_rebuiltInfoDict {infoDict : Pairs} {info : TorrentMetadata.Info}
    (h : parseInfoDict infoDict = .ok info) : parseInfoDict (rebuiltInfoDict info) = .ok info := by
  obtain ⟨pieceLength, fileLength, hfields⟩ := parseInfoDict_eq_ok h
  rw [rebuiltInfoDict_eq, hfields.pieceLength_eq, hfields.fileLength_eq, toInt64_toUInt64,
    toInt64_toUInt64]
  have hpiece : extractValueFromDict Value.asInt
      (fourKeys fileLength info.fileName pieceLength info.rawPieces) DictKeys.pieceLength =
        .ok pieceLength := rfl
  have hpieces : extractValueFromDict Value.asStr
      (fourKeys fileLength info.fileName pieceLength info.rawPieces) DictKeys.pieces =
        .ok info.rawPieces := rfl
  have hlength : extractValueFromDict Value.asInt
      (fourKeys fileLength info.fileName pieceLength info.rawPieces) DictKeys.length =
        .ok fileLength := rfl
  have hname : extractValueFromDict Value.asStr
      (fourKeys fileLength info.fileName pieceLength info.rawPieces) DictKeys.name =
        .ok info.fileName := rfl
  have hpositive : ¬ pieceLength ≤ 0 := Int64.not_le.mpr hfields.pieceLength_pos
  have hnonneg : ¬ fileLength < 0 := Int64.not_lt.mpr hfields.fileLength_nonneg
  simp only [parseInfoDict, hpiece, hpieces, hfields.hashes, hlength, hname, bind, Except.bind,
    if_neg hpositive, if_neg hnonneg, pure, Except.pure, ← hfields.pieceLength_eq,
    ← hfields.fileLength_eq]

/-- What is kept of a root dictionary. -/
theorem parseRootMetadata_rootOf {sha1 : Bytes → Sha1Hash} {root : Pairs}
    {metadata : TorrentMetadata} (h : parseRootMetadata sha1 root = .ok metadata) :
    parseRootMetadata sha1 (rootOf metadata) = .ok metadata := by
  unfold parseRootMetadata at h
  obtain ⟨comment, _, h⟩ := bind_eq_ok.mp h
  obtain ⟨announce, _, h⟩ := bind_eq_ok.mp h
  obtain ⟨creationDate, _, h⟩ := bind_eq_ok.mp h
  obtain ⟨infoDict, _, h⟩ := bind_eq_ok.mp h
  obtain ⟨info, hinfo, h⟩ := bind_eq_ok.mp h
  cases h
  -- the keys of the root dictionary are found one after another
  have hroot : ∀ metadata : TorrentMetadata, parseRootMetadata sha1 (rootOf metadata) =
      (do
        let info ← parseInfoDict (rebuiltInfoDict metadata.info)
        pure { metadata with
          creationDate := metadata.creationDate.toUInt64.toInt64.toUInt64.toNat
          infoHash := calculateInfoHash sha1 info
          info := info }) := fun _ => rfl
  rw [hroot]
  simp only [parseInfoDict_rebuiltInfoDict hinfo, bind, Except.bind, toInt64_toUInt64, pure,
    Except.pure]

/-- **A torrent is loaded as it was written.**  Whatever torrent file was accepted, with
whatever other keys and in whatever order: a file with the canonical encoding of what was
kept of it loads, from any path, to the same metadata, and so gets the same info hash. -/
theorem parseTorrentData_rootOf {sha1 : Bytes → Sha1Hash} {fuel : Nat} {path path' : String}
    {file : FileOutcome} {metadata : TorrentMetadata}
    (h : parseTorrentData sha1 fuel path file = .ok metadata)
    (hsize : (encode (.dict (rootOf metadata))).length ≤ maxTorrentSize) :
    ∃ fuel', parseTorrentData sha1 fuel' path'
      (.read (encode (.dict (rootOf metadata)))) = .ok metadata := by
  unfold parseTorrentData at h
  obtain ⟨torrentData, _, h⟩ := bind_eq_ok.mp h
  obtain ⟨root, _, h⟩ := bind_eq_ok.mp h
  have hloaded : parseRootMetadata sha1 root = .ok metadata := mapError_eq_ok.mp h
  have hfits : (encode (.dict (rootOf metadata))).length < 2 ^ 64 :=
    Nat.lt_of_le_of_lt hsize (by decide)
  have hreturns : Returns (encode (.dict (rootOf metadata))) (.dict (rootOf metadata)) := by
    have hwhole : (encode (.dict (rootOf metadata))).drop 0 =
        encode (.dict (rootOf metadata)) ++ [] := (List.append_nil _).symm
    obtain ⟨strings, hreads⟩ := reads_encode hfits (rootOf_wf metadata) hwhole (d := 0)
      (by rw [Nat.zero_add]; exact rootOf_height metadata)
    exact returns_reads.mpr ⟨_, strings, hreads⟩
  obtain ⟨fuel', hparse⟩ := hreturns
  refine ⟨fuel', ?_⟩
  have hroot : parseRootDict fuel' (encode (.dict (rootOf metadata))) =
      .ok (rootOf metadata) := by
    rw [parseRootDict, if_neg (Nat.not_lt.mpr hsize), hparse]
    rfl
  simp only [parseTorrentData, loadTorrentFile, Except.mapError, bind, Except.bind, hroot,
    parseRootMetadata_rootOf hloaded]

set_option maxRecDepth 2000 in
/-- The torrent with a mark in its info dictionary loads to what the plain one loads to. -/
theorem parseTorrentData_rootOf_private :
    ∃ fuel, parseTorrentData (fun _ => rebuiltDigest) fuel "other.torrent"
      (.read (encode (.dict (rootOf sampleMetadata)))) = .ok sampleMetadata := by
  have hloaded : parseTorrentData (fun _ => rebuiltDigest) 7 "some.torrent"
      (.read privateTorrent) = .ok sampleMetadata := rfl
  exact parseTorrentData_rootOf hloaded (by decide)

/-! ## One info dictionary for a hash -/

/-- The four fields that are hashed say what the rest of an info dictionary is. -/
theorem hashedInfo_injective {infoDict infoDict' : Pairs} {info info' : TorrentMetadata.Info}
    (h : parseInfoDict infoDict = .ok info) (h' : parseInfoDict infoDict' = .ok info')
    (hsame : hashedInfo info = hashedInfo info') : info = info' := by
  obtain ⟨pieceLength, fileLength, hfields⟩ := parseInfoDict_eq_ok h
  obtain ⟨pieceLength', fileLength', hfields'⟩ := parseInfoDict_eq_ok h'
  rw [hashedInfo, hashedInfo, rebuiltInfoDict_eq, rebuiltInfoDict_eq] at hsame
  have hdict := encode_inj (fourKeys_wf _ _ _ _) (fourKeys_wf _ _ _ _) hsame
  rw [hfields.pieceLength_eq, hfields'.pieceLength_eq, hfields.fileLength_eq,
    hfields'.fileLength_eq, toInt64_toUInt64, toInt64_toUInt64, toInt64_toUInt64,
    toInt64_toUInt64] at hdict
  obtain ⟨hlength, hname, hpiece, hpieces⟩ : fileLength = fileLength' ∧
      info.fileName = info'.fileName ∧ pieceLength = pieceLength' ∧
      info.rawPieces = info'.rawPieces := by
    simpa [fourKeys] using hdict
  have hhashes : info.pieceHashes = info'.pieceHashes := by
    have hsame := hfields.hashes
    rw [hpieces, hfields'.hashes] at hsame
    exact (Except.ok.inj hsame).symm
  have hpieceLength : info.pieceLength = info'.pieceLength := by
    rw [hfields.pieceLength_eq, hfields'.pieceLength_eq, hpiece]
  have hfileLength : info.fileLength = info'.fileLength := by
    rw [hfields.fileLength_eq, hfields'.fileLength_eq, hlength]
  cases info
  cases info'
  simp_all

/-- **One torrent for a hash.**  Two root dictionaries that are accepted and get the same
info hash have the same info: lengths, name and piece hashes.  Otherwise two different
strings that the program hashed have the same SHA1. -/
theorem infoHash_unique {sha1 : Bytes → Sha1Hash} {root root' : Pairs}
    {metadata metadata' : TorrentMetadata} (h : parseRootMetadata sha1 root = .ok metadata)
    (h' : parseRootMetadata sha1 root' = .ok metadata')
    (hsame : metadata.infoHash = metadata'.infoHash) :
    metadata.info = metadata'.info ∨
      (hashedInfo metadata.info ≠ hashedInfo metadata'.info ∧
        sha1 (hashedInfo metadata.info) = sha1 (hashedInfo metadata'.info)) := by
  obtain ⟨hhash, infoDict, _, hinfo⟩ := parseRootMetadata_eq_ok h
  obtain ⟨hhash', infoDict', _, hinfo'⟩ := parseRootMetadata_eq_ok h'
  by_cases heq : hashedInfo metadata.info = hashedInfo metadata'.info
  · exact Or.inl (hashedInfo_injective hinfo hinfo' heq)
  · exact Or.inr ⟨heq, hhash.symm.trans (hsame.trans hhash')⟩

/-- A torrent and the same torrent with a mark in its info dictionary. -/
theorem infoHash_unique_private :
    ∃ root root' metadata metadata',
      parseRootMetadata (fun _ => rebuiltDigest) root = .ok metadata ∧
      parseRootMetadata (fun _ => rebuiltDigest) root' = .ok metadata' ∧
      root.length = root'.length ∧ metadata.info = metadata'.info := by
  have hplain : parseRootMetadata (fun _ => rebuiltDigest)
      (sampleRoot (fourKeys 1 (ascii "f") 1 [])) = .ok sampleMetadata := rfl
  have hprivate : parseRootMetadata (fun _ => rebuiltDigest)
      (sampleRoot (fourKeys 1 (ascii "f") 1 [] ++ [(ascii "private", .int 1)])) =
        .ok sampleMetadata := rfl
  refine ⟨_, _, _, _, hplain, hprivate, rfl, ?_⟩
  exact (infoHash_unique hplain hprivate rfl).resolve_right fun hdiffer => hdiffer.1 rfl

end Loader

end BitTorrentClient
