/-
  Core/InfoHash.lean --- what is hashed, and what should be.

  The info hash is meant to be that of the octets that the value of the key "info"
  takes up in the torrent file.  What is hashed is the encoding of a dictionary
  rebuilt from four fields, and the two are the same exactly when the file holds
  the canonical encoding of a dictionary of these four keys and no others.
-/
import BitTorrentClient.Core.TorrentMetadataLoader
import BitTorrentClient.Core.Bencode.RoundTrip

set_option autoImplicit false

namespace BitTorrentClient.Loader

open Library Bencode Bencode.Detail

/-! ## Where a value stands -/

/-- In the pairs of a dictionary from `p` on, the first one with this key has the
value `v`, which takes up the octets from `pos` to `q`. -/
inductive ValueAt (data key : Bytes) (depth : Nat) : Nat → Nat → Value → Nat → Prop
  | here {p colon len q : Nat} {v : Value} {strings : List Nat} :
      moreItems data p = true → StringAt data p colon len →
      slice data (colon + 1) len = key →
      Reads data (u64 (colon + 1 + len)) (depth + 1) (.value v) q strings →
      ValueAt data key depth p (u64 (colon + 1 + len)) v q
  | there {p colon len r pos q : Nat} {v v' : Value} {strings : List Nat} :
      moreItems data p = true → StringAt data p colon len →
      slice data (colon + 1) len ≠ key →
      Reads data (u64 (colon + 1 + len)) (depth + 1) (.value v') r strings →
      ValueAt data key depth r pos v q → ValueAt data key depth p pos v q

/-- A value that stands somewhere is read there. -/
theorem ValueAt.reads {data key : Bytes} {depth p pos q : Nat} {v : Value}
    (h : ValueAt data key depth p pos v q) :
    ∃ strings, Reads data pos (depth + 1) (.value v) q strings := by
  induction h with
  | here _ _ _ hreads => exact ⟨_, hreads⟩
  | there _ _ _ _ _ ih => exact ih

/-- The first pair with a key is one pair. -/
theorem ValueAt.unique {data key : Bytes} {depth p pos pos' q q' : Nat} {v v' : Value}
    (h : ValueAt data key depth p pos v q) (h' : ValueAt data key depth p pos' v' q') :
    pos = pos' ∧ v = v' ∧ q = q' := by
  induction h generalizing pos' v' q' with
  | here _ hstring hkey hreads =>
    cases h' with
    | here _ hstring' _ hreads' =>
      obtain ⟨rfl, rfl⟩ := hstring.unique hstring'
      obtain ⟨heq, rfl, _⟩ := hreads.unique hreads' trivial
      exact ⟨rfl, Reading.value.inj heq, rfl⟩
    | there _ hstring' hne _ _ =>
      obtain ⟨rfl, rfl⟩ := hstring.unique hstring'
      exact absurd hkey hne
  | there _ hstring hne hreads _ ih =>
    cases h' with
    | here _ hstring' hkey _ =>
      obtain ⟨rfl, rfl⟩ := hstring.unique hstring'
      exact absurd hkey hne
    | there _ hstring' _ hreads' hrest' =>
      obtain ⟨rfl, rfl⟩ := hstring.unique hstring'
      obtain ⟨_, rfl, _⟩ := hreads.unique hreads' trivial
      exact ih hrest'

theorem find_foldl_emplace (key : Bytes) (pairs : Pairs) {values : Pairs}
    (h : Keyed Prod.fst values) :
    Keyed.find Prod.fst key
        (pairs.foldl (fun values pair => Keyed.emplace Prod.fst pair values) values) =
      (Keyed.find Prod.fst key values).or (Keyed.find Prod.fst key pairs) := by
  induction pairs generalizing values with
  | nil => simp [Keyed.find]
  | cons pair rest ih =>
    rw [List.foldl_cons, ih (Keyed.emplace_keyed h), Keyed.find_emplace h, Keyed.find_cons,
      Option.or_assoc]
    split
    · rw [Option.some_or]
    · rw [Option.none_or]

/-- What is found in a dictionary is the first pair with the key. -/
theorem find_dictOf (key : Bytes) (pairs : Pairs) :
    Keyed.find Prod.fst key (dictOf pairs) = Keyed.find Prod.fst key pairs :=
  (find_foldl_emplace key pairs Keyed.nil).trans (Option.none_or)

/-- A key that is found in the pairs that were read stands somewhere. -/
theorem valueAt_of_find {data key : Bytes} {p d e : Nat} {pairs : Pairs} {pair : Bytes × Value}
    {strings : List Nat} (h : Reads data p d (.pairs pairs) e strings)
    (hfind : Keyed.find Prod.fst key pairs = some pair) :
    ∃ pos q, ValueAt data key d p pos pair.2 q := by
  induction pairs generalizing p strings with
  | nil => simp [Keyed.find] at hfind
  | cons first rest ih =>
    cases h with
    | pair hmore hstring hv hrest =>
      rw [Keyed.find_cons] at hfind
      split at hfind
      · rename_i hkey
        cases hfind
        exact ⟨_, _, .here hmore hstring hkey hv⟩
      · rename_i hkey
        obtain ⟨pos, q, hrest⟩ := ih hrest hfind
        exact ⟨pos, q, .there hmore hstring hkey hv hrest⟩

/-! ## The dictionary that is hashed -/

/-- A dictionary of exactly the four keys that are hashed. -/
def fourKeys (fileLength : Int64) (name : Bytes) (pieceLength : Int64) (pieces : Bytes) : Pairs :=
  [(ascii DictKeys.length, .int fileLength), (ascii DictKeys.name, .str name),
    (ascii DictKeys.pieceLength, .int pieceLength), (ascii DictKeys.pieces, .str pieces)]

theorem fourKeys_wf (fileLength : Int64) (name : Bytes) (pieceLength : Int64) (pieces : Bytes) :
    (Value.dict (fourKeys fileLength name pieceLength pieces)).WF := by
  refine ⟨?_, trivial, trivial, trivial, trivial, trivial⟩
  simp only [fourKeys, Keyed, List.pairwise_cons, List.mem_cons, List.not_mem_nil, or_false,
    forall_eq_or_imp, forall_eq, List.Pairwise.nil, and_true, IsEmpty.forall_iff, implies_true]
  decide

/-- The fields are assigned out of order and come out in order. -/
theorem rebuiltInfoDict_eq (info : TorrentMetadata.Info) :
    rebuiltInfoDict info = fourKeys info.fileLength.toUInt64.toInt64 info.fileName
      info.pieceLength.toUInt64.toInt64 info.rawPieces := rfl

/-- An integer survives the way through an unsigned one. -/
theorem toInt64_toUInt64 (n : Int64) : n.toUInt64.toNat.toUInt64.toInt64 = n := by
  simp

/-- Of a dictionary of the four keys the dictionary itself is rebuilt. -/
theorem rebuiltInfoDict_of_fourKeys {fileLength pieceLength : Int64} {name pieces : Bytes}
    {info : TorrentMetadata.Info}
    (h : parseInfoDict (fourKeys fileLength name pieceLength pieces) = .ok info) :
    rebuiltInfoDict info = fourKeys fileLength name pieceLength pieces := by
  obtain ⟨pieceLength', fileLength', hfields⟩ := parseInfoDict_eq_ok h
  obtain rfl : pieceLength = pieceLength' := Except.ok.inj hfields.pieceLength_at
  obtain rfl : fileLength = fileLength' := Except.ok.inj hfields.length_at
  have hname : name = info.fileName := Except.ok.inj hfields.name_at
  have hpieces : pieces = info.rawPieces := Except.ok.inj hfields.pieces_at
  rw [rebuiltInfoDict_eq, hfields.pieceLength_eq, hfields.fileLength_eq, toInt64_toUInt64,
    toInt64_toUInt64, ← hname, ← hpieces]

/-! ## Fidelity -/

/-- The value of the key "info" of an accepted torrent stands somewhere in it. -/
theorem info_valueAt {sha1 : Bytes → Sha1Hash} {fuel : Nat} {torrentData : Bytes} {root : Pairs}
    {metadata : TorrentMetadata} (hroot : parseRootDict fuel torrentData = .ok root)
    (hmetadata : parseRootMetadata sha1 root = .ok metadata) :
    ∃ pos q infoDict, ValueAt torrentData (ascii DictKeys.info) 0 1 pos (.dict infoDict) q ∧
      parseInfoDict infoDict = .ok metadata.info := by
  obtain ⟨_, infoDict, hextract, hinfo⟩ := parseRootMetadata_eq_ok hmetadata
  obtain ⟨pair, hfind, halternative⟩ := extractValueFromDict_eq_ok.mp hextract
  obtain ⟨_, hparse⟩ := parseRootDict_eq_ok hroot
  obtain ⟨⟨v, q⟩, hvalue, hv⟩ := bind_eq_ok.mp hparse
  cases hv
  obtain ⟨strings, hreads⟩ := reads_of_parse hvalue
  cases hreads with
  | @dict _ _ e pairs _ _ _ hpairs =>
    rw [find_dictOf] at hfind
    obtain ⟨pos, q, hat⟩ := valueAt_of_find hpairs hfind
    have hdict : pair.2 = .dict infoDict := by
      cases hpair : pair.2 with
      | dict values =>
        rw [hpair] at halternative
        rw [Option.some.inj halternative]
      | _ => simp [hpair, Value.asDict] at halternative
    rw [hdict] at hat
    exact ⟨pos, q, infoDict, hat, hinfo⟩

/-- Where the canonical encoding of the four keys stands, that dictionary is read. -/
theorem ValueAt.eq_fourKeys {data key : Bytes} {p pos q : Nat} {v : Value} {fileLength : Int64}
    {name : Bytes} {pieceLength : Int64} {pieces : Bytes} (hsize : data.length < 2 ^ 64)
    (h : ValueAt data key 0 p pos v q)
    (hslice : slice data pos (q - pos) =
      encode (.dict (fourKeys fileLength name pieceLength pieces))) :
    v = .dict (fourKeys fileLength name pieceLength pieces) := by
  have hdrop : data.drop pos =
      encode (.dict (fourKeys fileLength name pieceLength pieces)) ++
        (data.drop pos).drop (q - pos) := by
    rw [← hslice, slice, List.take_append_drop]
  obtain ⟨strings, hreads⟩ := h.reads
  obtain ⟨strings', hreads'⟩ :=
    reads_encode hsize (fourKeys_wf fileLength name pieceLength pieces) hdrop (d := 0 + 1)
      (by simp [Value.height, heightPairs, fourKeys, maxRecursionDepth])
  exact Reading.value.inj (hreads.unique hreads' trivial).1

/-- **Info-hash fidelity.**  The octets that are hashed are those the value of the
key "info" takes up in the torrent, exactly when these are the canonical encoding
of a dictionary of the keys length, name, piece length and pieces. -/
theorem infoHash_faithful_iff {sha1 : Bytes → Sha1Hash} {fuel : Nat} {torrentData : Bytes}
    {root : Pairs} {metadata : TorrentMetadata}
    (hroot : parseRootDict fuel torrentData = .ok root)
    (hmetadata : parseRootMetadata sha1 root = .ok metadata) :
    metadata.infoHash = sha1 (hashedInfo metadata.info) ∧
      (∃ pos v q, ValueAt torrentData (ascii DictKeys.info) 0 1 pos v q) ∧
      ∀ pos v q, ValueAt torrentData (ascii DictKeys.info) 0 1 pos v q →
        (hashedInfo metadata.info = slice torrentData pos (q - pos) ↔
          ∃ fileLength name pieceLength pieces, slice torrentData pos (q - pos) =
            encode (.dict (fourKeys fileLength name pieceLength pieces))) := by
  obtain ⟨pos, q, infoDict, hat, hinfo⟩ := info_valueAt hroot hmetadata
  obtain ⟨hhash, _⟩ := parseRootMetadata_eq_ok hmetadata
  obtain ⟨hlen, _⟩ := parseRootDict_eq_ok hroot
  have hsize : torrentData.length < 2 ^ 64 := Nat.lt_of_le_of_lt hlen (by decide)
  refine ⟨hhash, ⟨pos, _, q, hat⟩, fun pos' v' q' hat' => ?_⟩
  obtain ⟨rfl, rfl, rfl⟩ := hat.unique hat'
  constructor
  · intro h
    have hfour : hashedInfo metadata.info = encode (.dict (rebuiltInfoDict metadata.info)) := rfl
    rw [rebuiltInfoDict_eq] at hfour
    exact ⟨_, _, _, _, h.symm.trans hfour⟩
  · rintro ⟨fileLength, name, pieceLength, pieces, hslice⟩
    obtain rfl := Value.dict.inj (hat.eq_fourKeys hsize hslice)
    rw [hslice, hashedInfo, rebuiltInfoDict_of_fourKeys hinfo]

/-! ## Two torrents -/

/-- SHA1 of the info dictionary of both torrents below, as it is rebuilt. -/
def rebuiltDigest : Sha1Hash :=
  ⟨[205, 75, 158, 62, 106, 11, 226, 244, 167, 136, 145, 137,
    102, 59, 109, 72, 9, 135, 137, 46], rfl⟩

/-- A root dictionary around an info dictionary. -/
def sampleRoot (info : Pairs) : Pairs :=
  [(ascii DictKeys.announce, .str (ascii "a")), (ascii DictKeys.comment, .str (ascii "c")),
    (ascii DictKeys.creationDate, .int 0), (ascii DictKeys.info, .dict info)]

/-- A torrent of the four keys. -/
def plainTorrent : Bytes := encode (.dict (sampleRoot (fourKeys 1 (ascii "f") 1 [])))

/-- A torrent whose info dictionary is marked as private. -/
def privateTorrent : Bytes :=
  encode (.dict (sampleRoot (fourKeys 1 (ascii "f") 1 [] ++ [(ascii "private", .int 1)])))

/-- What both are turned into. -/
def sampleMetadata : TorrentMetadata where
  announce := ascii "a"
  comment := ascii "c"
  creationDate := 0
  infoHash := rebuiltDigest
  info :=
    { pieceHashes := []
      rawPieces := []
      pieceLength := 1
      fileLength := 1
      fileName := ascii "f" }

/-- The value of the key "info" stands behind three other pairs. -/
theorem sample_valueAt {data : Bytes} {q : Nat} {v : Value}
    (hannounce : Detail.parse data 1 11 1 = .ok (.str (ascii "a"), 14))
    (hcomment : Detail.parse data 1 23 1 = .ok (.str (ascii "c"), 26))
    (hdate : Detail.parse data 1 42 1 = .ok (.int 0, 45))
    (hinfo : Detail.parse data 6 51 1 = .ok (v, q))
    (hkeys : StringAt data 1 2 8 ∧ StringAt data 14 15 7 ∧ StringAt data 26 28 13 ∧
      StringAt data 45 46 4)
    (hmore : ∀ p ∈ [1, 14, 26, 45], moreItems data p = true)
    (hnames : slice data 3 8 ≠ ascii DictKeys.info ∧ slice data 16 7 ≠ ascii DictKeys.info ∧
      slice data 29 13 ≠ ascii DictKeys.info ∧ slice data 47 4 = ascii DictKeys.info) :
    ValueAt data (ascii DictKeys.info) 0 1 51 v q := by
  obtain ⟨_, hannounce⟩ := reads_of_parse hannounce
  obtain ⟨_, hcomment⟩ := reads_of_parse hcomment
  obtain ⟨_, hdate⟩ := reads_of_parse hdate
  obtain ⟨_, hinfo⟩ := reads_of_parse hinfo
  obtain ⟨hkey₁, hkey₂, hkey₃, hkey₄⟩ := hkeys
  obtain ⟨hname₁, hname₂, hname₃, hname₄⟩ := hnames
  exact .there (hmore 1 (by simp)) hkey₁ hname₁ hannounce
    (.there (hmore 14 (by simp)) hkey₂ hname₂ hcomment
      (.there (hmore 26 (by simp)) hkey₃ hname₃ hdate
        (.here (hmore 45 (by simp)) hkey₄ hname₄ hinfo)))

/-- The dictionary of `plainTorrent` is hashed as it stands there. -/
theorem infoHash_faithful_iff_plain :
    parseRootDict 7 plainTorrent = .ok (sampleRoot (fourKeys 1 (ascii "f") 1 [])) ∧
      parseRootMetadata (fun _ => rebuiltDigest) (sampleRoot (fourKeys 1 (ascii "f") 1 [])) =
        .ok sampleMetadata ∧
      hashedInfo sampleMetadata.info = slice plainTorrent 51 50 := by
  have hroot : parseRootDict 7 plainTorrent = .ok (sampleRoot (fourKeys 1 (ascii "f") 1 [])) := rfl
  have hmetadata : parseRootMetadata (fun _ => rebuiltDigest)
      (sampleRoot (fourKeys 1 (ascii "f") 1 [])) = .ok sampleMetadata := rfl
  have hat : ValueAt plainTorrent (ascii DictKeys.info) 0 1 51
      (.dict (fourKeys 1 (ascii "f") 1 [])) 101 :=
    sample_valueAt rfl rfl rfl rfl
      ⟨⟨rfl, rfl, by decide⟩, ⟨rfl, rfl, by decide⟩, ⟨rfl, rfl, by decide⟩, ⟨rfl, rfl, by decide⟩⟩
      (by decide) (by decide)
  obtain ⟨_, _, hiff⟩ := infoHash_faithful_iff hroot hmetadata
  exact ⟨hroot, hmetadata, (hiff _ _ _ hat).mpr ⟨1, ascii "f", 1, [], rfl⟩⟩

set_option maxRecDepth 2000 in
/-- The mark of `privateTorrent` is not hashed. -/
theorem infoHash_unfaithful_private :
    ∃ root, parseRootDict 7 privateTorrent = .ok root ∧
      parseRootMetadata (fun _ => rebuiltDigest) root = .ok sampleMetadata ∧
      ∃ v, ValueAt privateTorrent (ascii DictKeys.info) 0 1 51 v 113 ∧
        hashedInfo sampleMetadata.info ≠ slice privateTorrent 51 62 := by
  refine ⟨sampleRoot (fourKeys 1 (ascii "f") 1 [] ++ [(ascii "private", .int 1)]), rfl, rfl,
    .dict (fourKeys 1 (ascii "f") 1 [] ++ [(ascii "private", .int 1)]), ?_, fun h => ?_⟩
  · exact sample_valueAt rfl rfl rfl rfl
      ⟨⟨rfl, rfl, by decide⟩, ⟨rfl, rfl, by decide⟩, ⟨rfl, rfl, by decide⟩, ⟨rfl, rfl, by decide⟩⟩
      (by decide) (by decide)
  · have hlen : (50 : Nat) = 62 := congrArg List.length h
    omega

end BitTorrentClient.Loader
