/-
  App/PieceManager/SpareBits.lean --- requests stay inside the torrent.

  The size of a peer's bitfield is checked, the bits behind the last piece are not.  The
  scan of `requestBlock` takes such a bit for a piece, and `_getNextBlockForPiece` reads
  `_nextOffsets` behind its end; but only if the scan comes that far.
-/
import BitTorrentClient.App.PieceManager.Selection

set_option autoImplicit false

namespace BitTorrentClient

open Library

namespace PieceManager

variable {sha1 : Bytes → Sha1Hash} {metadata : TorrentMetadata} {m m' : PieceManager}

/-- `requestBlock` calls `_getNextBlockForPiece` with this index: the pieces that the
scan comes to before it have no block to hand out. -/
def Asks (m : PieceManager) (peerBitfield : Bytes) (index : Nat) : Prop :=
  ∃ before p after, m.wantedPieces peerBitfield = before ++ p :: after ∧ u32 p = index ∧
    ∀ q ∈ before, m.getNextBlockForPiece (u32 q) = .ok none

/-- A call of `requestBlock` that stays inside the torrent. -/
structure StaysInside (metadata : TorrentMetadata) (m : PieceManager) (peerBitfield : Bytes) :
    Prop where
  asks : ∀ index, m.Asks peerBitfield index → index < metadata.numPieces
  reads : ∀ index, m.Asks peerBitfield index → index < m.nextOffsets.length
  inRange : m.requestBlock peerBitfield ≠ .error .outOfRange
  block : ∀ block m', m.requestBlock peerBitfield = .ok (some block, m') →
    block.pieceIndex < metadata.numPieces

/-- The scan ends at the piece `p`: the peer has it, we have not finished it, and one of
its blocks is requestable, or its length cannot be computed. -/
def StopsAt (m : PieceManager) (peerBitfield : Bytes) (p : Nat) : Prop :=
  pieceBit peerBitfield p = true ∧ m.finished[p]? = some false ∧
    ((∃ k, Requestable m p k) ∨ m.getPieceLength p = .error .divisionByZero)

/-! ## One piece -/

/-- Only the last piece can be without a length. -/
theorem getPieceLength_eq_error {info : TorrentMetadata.Info} {index : Nat} {f : Fault}
    (h : info.getPieceLength index = .error f) :
    f = .divisionByZero ∧ index + 1 = info.pieceHashes.length := by
  simp only [TorrentMetadata.Info.getPieceLength] at h
  split at h
  · rename_i hlast
    split at h
    · exact ⟨(Except.error.inj h).symm, hlast⟩
    · split at h <;> cases h
  · cases h

/-- Behind the last piece, `_nextOffsets` is read out of range. -/
theorem getNextBlockForPiece_of_le (hs : Shaped metadata m) {index : Nat}
    (hidx : metadata.numPieces ≤ index) :
    m.getNextBlockForPiece index = .error .outOfRange := by
  have hnone : m.nextOffsets[index]? = none :=
    List.getElem?_eq_none ((Nat.le_of_eq hs.offsets_length).trans hidx)
  cases hlen : m.getPieceLength index with
  | error f =>
    have hlast := (getPieceLength_eq_error hlen).2
    rw [hs.metadata_eq] at hlast
    rw [TorrentMetadata.numPieces] at hidx
    omega
  | ok len =>
    rw [getNextBlockForPiece, hlen, bind_ok, readAt, hnone]
    rfl

/-- Inside the torrent, it is not. -/
theorem getNextBlockForPiece_inRange (hs : Shaped metadata m) (ha : Aligned metadata m)
    {index : Nat} (hidx : index < metadata.numPieces) :
    m.getNextBlockForPiece index ≠ .error .outOfRange := by
  cases hlen : metadata.info.getPieceLength index with
  | error f =>
    obtain ⟨rfl, _⟩ := getPieceLength_eq_error hlen
    have hlen' : m.getPieceLength index = .error .divisionByZero := by
      rw [getPieceLength, hs.metadata_eq, hlen]
    rw [getNextBlockForPiece, hlen']
    simp [bind, Except.bind]
  | ok len =>
    rcases getNextBlockForPiece_cases hs ha hidx hlen with ⟨hnone, _⟩ | ⟨block, m', hsome, _⟩
    · rw [hnone]
      simp
    · rw [hsome]
      simp

/-- A piece of the torrent at which the scan does not stop has no block to hand out, and
at which it does has one, or faults. -/
theorem declines_iff (hs : Shaped metadata m) (ha : Aligned metadata m) {peerBitfield : Bytes}
    {p : Nat} (hidx : p < metadata.numPieces) (hpeer : pieceBit peerBitfield p = true)
    (hunfinished : m.finished[p]? = some false) :
    m.getNextBlockForPiece p = .ok none ↔ ¬ m.StopsAt peerBitfield p := by
  rw [StopsAt, and_iff_right hpeer, and_iff_right hunfinished]
  cases hlen : metadata.info.getPieceLength p with
  | error f =>
    obtain ⟨rfl, _⟩ := getPieceLength_eq_error hlen
    have hlen' : m.getPieceLength p = .error .divisionByZero := by
      rw [getPieceLength, hs.metadata_eq, hlen]
    rw [getNextBlockForPiece, hlen']
    exact iff_of_false (by simp [bind, Except.bind]) fun h => h (Or.inr rfl)
  | ok len =>
    have hlen' : m.getPieceLength p = .ok len := by rw [getPieceLength, hs.metadata_eq, hlen]
    rcases getNextBlockForPiece_cases hs ha hidx hlen with ⟨hnone, hnot⟩ | ⟨block, m', hsome, hout⟩
    · refine iff_of_true hnone ?_
      rintro (⟨k, hk⟩ | hfault)
      · exact hnot k hk
      · rw [hlen'] at hfault
        cases hfault
    · obtain ⟨k, len', next, hblock⟩ := hout.block hs ha
      refine iff_of_false ?_ fun h => h (Or.inl ⟨k, (hblock.first hs).1⟩)
      rw [hsome]
      simp

/-! ## The scan -/

/-- A scan that asks for pieces of the torrent only stays inside it in every respect. -/
theorem staysInside_of_asks (hs : Shaped metadata m) (ha : Aligned metadata m)
    {peerBitfield : Bytes} (hsize : SizedFor metadata peerBitfield)
    (hasks : ∀ index, m.Asks peerBitfield index → index < metadata.numPieces) :
    StaysInside metadata m peerBitfield := by
  have hbytes : m.bitfield.length ≤ peerBitfield.length := by rw [hs.bitfield_length, hsize]
  refine ⟨hasks, fun index h => hs.offsets_length ▸ hasks index h, fun hfault => ?_, ?_⟩
  · rw [requestBlock_eq hbytes] at hfault
    cases hsearch : (m.wantedPieces peerBitfield).findSomeM?
        (fun p => m.getNextBlockForPiece (u32 p)) with
    | error f =>
      obtain ⟨before, p, after, hsplit, hbefore, herror⟩ :=
        (findSomeM?_eq_iff (by simp)).mp hsearch
      rw [hsearch] at hfault
      cases hfault
      exact getNextBlockForPiece_inRange hs ha (hasks _ ⟨before, p, after, hsplit, rfl, hbefore⟩)
        herror
    | ok found =>
      rw [hsearch] at hfault
      cases found <;> cases hfault
  · intro block m' hcall
    rw [requestBlock_eq hbytes] at hcall
    obtain ⟨found, hsearch, hcall⟩ := bind_eq_ok.mp hcall
    cases found with
    | none => cases hcall
    | some found =>
      cases hcall
      obtain ⟨before, p, after, hsplit, hbefore, hfound⟩ := findSomeM?_eq_some.mp hsearch
      rw [(getNextBlockForPiece_eq_some hfound).key.1]
      exact hasks _ ⟨before, p, after, hsplit, rfl, hbefore⟩

/-- The first element of an increasing list that is not below a bound. -/
theorem exists_first_ge {l : List Nat} {n i : Nat} (h : l.Pairwise (· < ·)) (hi : i ∈ l)
    (hge : n ≤ i) : ∃ before p after, l = before ++ p :: after ∧ n ≤ p ∧ ∀ q ∈ before, q < n := by
  induction l with
  | nil => cases hi
  | cons a rest ih =>
    rcases Nat.lt_or_ge a n with hlt | hfirst
    · have hrest : i ∈ rest := by
        rcases List.mem_cons.mp hi with rfl | hmem
        · exact absurd hge (Nat.not_le.mpr hlt)
        · exact hmem
      obtain ⟨before, p, after, rfl, hp, hbefore⟩ := ih (List.pairwise_cons.mp h).2 hrest
      refine ⟨a :: before, p, after, rfl, hp, fun q hq => ?_⟩
      rcases List.mem_cons.mp hq with rfl | hq
      · exact hlt
      · exact hbefore q hq
    · exact ⟨[], a, rest, rfl, hfirst, by simp⟩

/-- A scan that nothing stops comes to the first spare bit that is set. -/
theorem exists_asks_spare (hs : Shaped metadata m) (ha : Aligned metadata m)
    (hbooks : Bookkeeping metadata m) {peerBitfield : Bytes}
    (hsize : SizedFor metadata peerBitfield) (hfew : metadata.numPieces < 2 ^ 32)
    (hspare : ¬ SpareClear metadata peerBitfield)
    (hstops : ¬ ∃ p < metadata.numPieces, m.StopsAt peerBitfield p) :
    ∃ p, metadata.numPieces ≤ p ∧ m.Asks peerBitfield p := by
  obtain ⟨i, hge, hset⟩ : ∃ i, metadata.numPieces ≤ i ∧ pieceBit peerBitfield i = true := by
    by_contra hclear
    refine hspare fun i hge => ?_
    by_contra hset
    exact hclear ⟨i, hge, by simpa using hset⟩
  have hwanted : i ∈ m.wantedPieces peerBitfield := by
    refine mem_wantedPieces.mpr ⟨?_, hset, ?_⟩
    · have hin := lt_of_pieceBit hset
      rwa [hsize, ← hs.bitfield_length] at hin
    · rw [← Bool.not_eq_true, hbooks.bits i,
        List.getElem?_eq_none ((Nat.le_of_eq hs.finished_length).trans hge)]
      simp
  -- every piece before the first spare bit declines
  obtain ⟨before, p, after, hsplit, hp, hbefore⟩ :=
    exists_first_ge (m.sorted_wantedPieces peerBitfield) hwanted hge
  have hin : p < 2 ^ 32 := by
    have hmem : p ∈ m.wantedPieces peerBitfield := by rw [hsplit]; simp
    have hbyte := (mem_wantedPieces.mp hmem).1
    rw [hs.bitfield_length] at hbyte
    omega
  refine ⟨p, hp, before, p, after, hsplit, u32_of_lt hin, fun q hq => ?_⟩
  have hqn := hbefore q hq
  have hmem : q ∈ m.wantedPieces peerBitfield := by
    rw [hsplit]
    exact List.mem_append_left _ hq
  obtain ⟨hpeer, hunfinished⟩ := (mem_wantedPieces_iff hs hbooks hqn).mp hmem
  rw [u32_of_lt (Nat.lt_trans hqn hfew)]
  exact (declines_iff hs ha hqn hpeer hunfinished).mpr fun h => hstops ⟨q, hqn, h⟩

/-- A scan that stops at a piece of the torrent asks for pieces of the torrent only. -/
theorem asks_of_stopsAt (hs : Shaped metadata m) (ha : Aligned metadata m)
    (hbooks : Bookkeeping metadata m) {peerBitfield : Bytes}
    (hfew : metadata.numPieces < 2 ^ 32) {q index : Nat} (hq : q < metadata.numPieces)
    (hstops : m.StopsAt peerBitfield q) (hasked : m.Asks peerBitfield index) :
    index < metadata.numPieces := by
  obtain ⟨before, p, after, hsplit, rfl, hbefore⟩ := hasked
  refine Nat.lt_of_not_le fun hge => ?_
  have hp : metadata.numPieces ≤ p := Nat.le_trans hge (u32_le p)
  have hsorted := m.sorted_wantedPieces peerBitfield
  have hwanted := (mem_wantedPieces_iff hs hbooks hq).mpr ⟨hstops.1, hstops.2.1⟩
  rw [hsplit] at hsorted hwanted
  -- the scan came to `q` before, and would have stopped there
  have hdeclined := hbefore q ((mem_before_iff hsorted hwanted).mpr (by omega))
  rw [u32_of_lt (Nat.lt_trans hq hfew)] at hdeclined
  exact (declines_iff hs ha hq hstops.1 hstops.2.1).mp hdeclined hstops

/-- Whether a call stays inside shows in its result: an index outside is read at once. -/
theorem staysInside_iff_inRange (hs : Shaped metadata m) (ha : Aligned metadata m)
    {peerBitfield : Bytes} (hsize : SizedFor metadata peerBitfield) :
    StaysInside metadata m peerBitfield ↔ m.requestBlock peerBitfield ≠ .error .outOfRange := by
  have hbytes : m.bitfield.length ≤ peerBitfield.length := by rw [hs.bitfield_length, hsize]
  refine ⟨fun h => h.inRange, fun hinRange => staysInside_of_asks hs ha hsize ?_⟩
  rintro index ⟨before, p, after, hsplit, rfl, hbefore⟩
  refine Nat.lt_of_not_le fun hge => hinRange ?_
  have hsearch : (m.wantedPieces peerBitfield).findSomeM?
      (fun p => m.getNextBlockForPiece (u32 p)) = .error .outOfRange :=
    (findSomeM?_eq_iff (by simp)).mpr
      ⟨before, p, after, hsplit, hbefore, getNextBlockForPiece_of_le hs hge⟩
  rw [requestBlock_eq hbytes, hsearch]
  rfl

/-- **Requests stay inside the torrent** exactly when no bit behind the last piece is set,
or the scan stops at a piece before it comes there; or there are so many pieces that
every 32-bit index is one. -/
theorem staysInside_iff {history : List (Transition PieceManager (Op × Answer))}
    (hrun : (machine sha1 metadata).Run history m) {peerBitfield : Bytes}
    (hsize : SizedFor metadata peerBitfield) :
    StaysInside metadata m peerBitfield ↔
      SpareClear metadata peerBitfield ∨
        (∃ p < metadata.numPieces, m.StopsAt peerBitfield p) ∨ 2 ^ 32 ≤ metadata.numPieces := by
  have hs := shaped_of_run hrun
  have ha := aligned_of_run hrun
  have hbooks := bookkeeping_of_run hrun
  constructor
  · intro hinside
    by_contra hnone
    obtain ⟨hspare, hstops, hfew⟩ := by simpa only [not_or] using hnone
    obtain ⟨p, hp, hasked⟩ :=
      exists_asks_spare hs ha hbooks hsize (Nat.lt_of_not_le hfew) hspare hstops
    exact absurd (hinside.asks p hasked) (Nat.not_lt.mpr hp)
  · intro hwhen
    refine staysInside_of_asks hs ha hsize fun index hasked => ?_
    by_cases hfew : metadata.numPieces < 2 ^ 32
    · rcases hwhen with hspare | ⟨q, hq, hstops⟩ | hmany
      · obtain ⟨before, p, after, hsplit, rfl, _⟩ := hasked
        have hmem : p ∈ m.wantedPieces peerBitfield := by rw [hsplit]; simp
        exact Nat.lt_of_le_of_lt (u32_le p) (hspare.inTorrent hmem)
      · exact asks_of_stopsAt hs ha hbooks hfew hq hstops hasked
      · exact absurd hmany (Nat.not_le.mpr hfew)
    · obtain ⟨_, p, _, _, rfl, _⟩ := hasked
      exact Nat.lt_of_lt_of_le (u32_lt p) (Nat.le_of_not_lt hfew)

/-- The first request of a torrent of one byte, whatever the spare bits are. -/
theorem staysInside_iff_oneByte :
    StaysInside (onePiece sevenDigest 1) (new (onePiece sevenDigest 1) emptyFile true) [255] := by
  have hrun : (machine sampleSha1 (onePiece sevenDigest 1)).Run []
      (new (onePiece sevenDigest 1) emptyFile true) := .start ⟨emptyFile, true, rfl⟩
  have hsize : SizedFor (onePiece sevenDigest 1) [255] := rfl
  refine (staysInside_iff hrun hsize).mpr (Or.inr (Or.inl ⟨0, by decide, rfl, rfl, Or.inl ⟨0, ?_⟩⟩))
  exact ⟨⟨1, rfl, by decide⟩, ⟨0, rfl, by decide⟩, KeyedSet.has_empty _⟩

/-- The second one comes to the first spare bit and reads `_nextOffsets` behind its only
element. -/
theorem not_staysInside_secondRequest :
    ∃ history m, (machine sampleSha1 (onePiece sevenDigest 1)).Run history m ∧
      SizedFor (onePiece sevenDigest 1) [255] ∧ m.nextOffsets.length = 1 ∧
      m.Asks [255] 1 ∧ m.requestBlock [255] = .error .outOfRange ∧
      ¬ StaysInside (onePiece sevenDigest 1) m [255] := by
  have hrun := runOps_run sampleSha1 (onePiece sevenDigest 1) [.requestBlock [255]]
    (.start ⟨emptyFile, true, rfl⟩) rfl
  refine ⟨_, _, hrun, rfl, rfl, ⟨[0], 1, [2, 3, 4, 5, 6, 7], rfl, rfl, ?_⟩, rfl,
    fun hinside => hinside.inRange rfl⟩
  intro q hq
  obtain rfl := List.mem_singleton.mp hq
  rfl

end PieceManager

end BitTorrentClient
