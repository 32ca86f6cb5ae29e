/-
  App/PieceManager/Selection.lean --- which block `requestBlock` hands out.

  The scan over the bytes and bits of the two bitfields is a search among the pieces
  that the peer has and we have not, in order; within a piece, `_getNextBlockForPiece`
  looks for the first block that is not pending.  Both searches find the first there is,
  and that rests on an invariant: pending blocks lie at block boundaries and are as long
  as there is room for, though the set orders them without looking at the length.
-/
import BitTorrentClient.App.PieceManager.Completion
import BitTorrentClient.App.PieceManager.Scheduler
import BitTorrentClient.App.PieceManager.Totality

set_option autoImplicit false

namespace BitTorrentClient

open Library

namespace PieceManager

variable {sha1 : Bytes → Sha1Hash} {metadata : TorrentMetadata} {m m' : PieceManager}

/-! ## The scan -/

theorem bitSet_and_not (peers mine : UInt8) {bit : Nat} (h : bit < 8) :
    bitSet (peers &&& ~~~mine) bit = (bitSet peers bit && !bitSet mine bit) := by
  have hlsb : ∀ byte : UInt8, bitSet byte bit = byte.toBitVec.getLsbD bit := by
    intro byte
    rw [bitSet_eq_testBit byte h, ← UInt8.toNat_toBitVec, BitVec.testBit_toNat]
  rw [hlsb, hlsb, hlsb, UInt8.toBitVec_and, UInt8.toBitVec_not, BitVec.getLsbD_and,
    BitVec.getLsbD_not, decide_eq_true h, Bool.true_and]

/-- The peer has the piece and we have not. -/
def wants (m : PieceManager) (peerBitfield : Bytes) (p : Nat) : Bool :=
  pieceBit peerBitfield p && !pieceBit m.bitfield p

/-- The pieces that a byte of a bitfield has bits for, in the order of the scan. -/
def byteIndices (i : Nat) : List Nat := [7, 6, 5, 4, 3, 2, 1, 0].map fun bit => i * 8 + (7 - bit)

/-- Byte by byte, the scan comes to all pieces in order. -/
theorem range_eq_flatMap_byteIndices (bytes : Nat) :
    List.range (8 * bytes) = (List.range bytes).flatMap byteIndices := by
  induction bytes with
  | zero => rfl
  | succ bytes ih =>
    have hbyte : (List.range 8).map (8 * bytes + ·) = byteIndices bytes := by
      rw [byteIndices, Nat.mul_comm]
      rfl
    rw [Nat.mul_succ, List.range_add, ih, hbyte, List.range_succ, List.flatMap_append,
      List.flatMap_singleton]

/-- The pieces that the scan of `requestBlock` asks for, in order. -/
def wantedPieces (m : PieceManager) (peerBitfield : Bytes) : List Nat :=
  (List.range (8 * m.bitfield.length)).filter (m.wants peerBitfield)

/-- A bit of the byte that the scan looks at. -/
theorem wants_eq {peerBitfield : Bytes} {i bit : Nat} {mine peers : UInt8} (hbit : bit < 8)
    (hmine : m.bitfield[i]? = some mine) (hpeers : peerBitfield[i]? = some peers) :
    m.wants peerBitfield (i * 8 + (7 - bit)) = bitSet (peers &&& ~~~mine) bit := by
  rw [bitSet_and_not _ _ hbit, bitSet_eq_pieceBit hmine hbit, bitSet_eq_pieceBit hpeers hbit, wants]

/-- The scan over bytes and bits is a search among the wanted pieces. -/
theorem requestBlock_eq {peerBitfield : Bytes} (hsize : m.bitfield.length ≤ peerBitfield.length) :
    m.requestBlock peerBitfield =
      (m.wantedPieces peerBitfield).findSomeM? (fun p => m.getNextBlockForPiece (u32 p)) >>=
        fun found =>
          match found with
          | some (block, m') => pure (some block, m')
          | none => pure (none, m) := by
  rw [requestBlock, wantedPieces, range_eq_flatMap_byteIndices, findSomeM?_filter,
    findSomeM?_flatMap]
  congr 1
  refine findSomeM?_congr fun i hi => ?_
  have hi : i < m.bitfield.length := List.mem_range.mp hi
  have hmine := List.getElem?_eq_getElem hi
  have hpeers := List.getElem?_eq_getElem (Nat.lt_of_lt_of_le hi hsize)
  rw [readAt_eq_ok.mpr hmine, readAt_eq_ok.mpr hpeers, byteIndices, findSomeM?_map]
  have hbits : ∀ bit ∈ [7, 6, 5, 4, 3, 2, 1, 0],
      (if m.wants peerBitfield (i * 8 + (7 - bit)) then
        m.getNextBlockForPiece (u32 (i * 8 + (7 - bit))) else .ok none) =
      if bitSet (peerBitfield[i] &&& ~~~m.bitfield[i]) bit then
        m.getNextBlockForPiece (u32 (i * 8 + (7 - bit))) else pure none := by
    intro bit hbit
    have hbit : bit < 8 := by
      simp only [List.mem_cons, List.not_mem_nil, or_false] at hbit
      omega
    rw [wants_eq hbit hmine hpeers]
    rfl
  rw [findSomeM?_congr hbits]
  simp only [bind, Except.bind]
  split
  · rfl
  · rename_i hzero
    have hzero : peerBitfield[i] &&& ~~~m.bitfield[i] = 0 := by
      rw [← UInt8.toNat_inj]
      simpa [UInt8.lt_iff_toNat_lt] using hzero
    rw [hzero]
    rfl

/-! ## Blocks that can be handed out -/

/-- The block `k` of the piece `p` lies inside the piece, not before its search, and is
not pending. -/
structure Requestable (m : PieceManager) (p k : Nat) : Prop where
  inside : ∃ len, m.getPieceLength p = .ok len ∧ k * blockLen < len
  free : Free m p k
  idle : ¬ Pending m p k

/-- Without a block to hand out, no block of the piece is requestable. -/
theorem not_requestable_of_findGap (ha : Aligned metadata m) (hs : Shaped metadata m)
    {index len next : Nat} (hlen : metadata.info.getPieceLength index = .ok len)
    (hnext : m.nextOffsets[index]? = some next)
    (hgap : findGap m.pendingBlocks index len (len - next) next = none) (k : Nat) :
    ¬ Requestable m index k := by
  rintro ⟨⟨len', hlen', hin⟩, ⟨next', hnext', hle⟩, hidle⟩
  obtain rfl := Option.some.inj (hnext.symm.trans hnext')
  obtain rfl : len = len' := by
    rw [getPieceLength, hs.metadata_eq] at hlen'
    exact Except.ok.inj (hlen.symm.trans hlen')
  have hlt := (TorrentMetadata.Info.getPieceLength_le hlen).2
  -- the search starts at a block boundary, since a block is left behind it
  obtain ⟨start, rfl⟩ : blockLen ∣ next := by
    rcases ha.next index next len hnext hlen with hdvd | hend
    · exact hdvd
    · omega
  have hstart : start ≤ k := by
    rw [Nat.mul_comm] at hle
    exact Nat.le_of_mul_le_mul_right hle (by decide)
  have hoffset : blockLen * start + (k - start) * blockLen = k * blockLen := by
    rw [Nat.mul_comm, ← Nat.add_mul, Nat.add_sub_cancel' hstart]
  have hpending := findGap_eq_none hlt (by omega) hgap (k - start) (by rwa [hoffset])
  rw [hoffset] at hpending
  exact hidle hpending

/-- Asking for a block of a piece of the torrent whose length is known. -/
theorem getNextBlockForPiece_cases (hs : Shaped metadata m) (ha : Aligned metadata m)
    {index len : Nat} (hidx : index < metadata.numPieces)
    (hlen : metadata.info.getPieceLength index = .ok len) :
    (m.getNextBlockForPiece index = .ok none ∧ ∀ k, ¬ Requestable m index k) ∨
    ∃ block m', m.getNextBlockForPiece index = .ok (some (block, m')) ∧
      m.HandsOut index block m' := by
  have hlt := (TorrentMetadata.Info.getPieceLength_le hlen).2
  have hlen' : m.getPieceLength index = .ok len := by rw [getPieceLength, hs.metadata_eq, hlen]
  have hin : index < m.nextOffsets.length := hs.offsets_length ▸ hidx
  have hnext := List.getElem?_eq_getElem hin
  cases hgap : findGap m.pendingBlocks index (u32 len) (u32 len - m.nextOffsets[index])
      m.nextOffsets[index] with
  | none =>
    have hcall : m.getNextBlockForPiece index = .ok none := by
      simp only [getNextBlockForPiece, hlen', readAt_eq_ok.mpr hnext, bind_ok, hgap]
      rfl
    rw [u32_of_lt hlt] at hgap
    exact Or.inl ⟨hcall, not_requestable_of_findGap ha hs hlen hnext hgap⟩
  | some block =>
    have hcall : m.getNextBlockForPiece index = .ok (some (block, { m with
        pendingBlocks := m.pendingBlocks.insert block
        nextOffsets := m.nextOffsets.set index (u32 (block.offset + block.length)) })) := by
      simp only [getNextBlockForPiece, hlen', readAt_eq_ok.mpr hnext,
        writeAt_eq_ok.mpr ⟨hin, rfl⟩, bind_ok, hgap]
      rfl
    exact Or.inr ⟨block, _, hcall, getNextBlockForPiece_eq_some hcall⟩

/-- The block that is handed out is the first requestable one of its piece. -/
theorem HandsOutBlock.first {index k len next : Nat} {block : Block} (hs : Shaped metadata m)
    (h : HandsOutBlock metadata m index k len next block m') :
    Requestable m index k ∧ ∀ j, Requestable m index j → k ≤ j := by
  refine ⟨⟨⟨len, ?_, h.inside⟩, ⟨next, h.start, h.after⟩, h.free⟩, fun j hj => ?_⟩
  · rw [getPieceLength, hs.metadata_eq, h.length]
  · obtain ⟨next', hnext', hle⟩ := hj.free
    obtain rfl := Option.some.inj (h.start.symm.trans hnext')
    exact Nat.le_of_not_lt fun hlt => hj.idle (h.passed j hlt hle)

/-! ## The shape of pending blocks -/

/-- A block of the torrent: it lies in one of the pieces, at a block boundary, and is as
long as there is room for. -/
structure BlockOf (metadata : TorrentMetadata) (block : Block) : Prop where
  index : block.pieceIndex < metadata.numPieces
  shape : ∃ k len, metadata.info.getPieceLength block.pieceIndex = .ok len ∧
    block.offset = k * blockLen ∧ k * blockLen < len ∧
    block.length = min blockLen (len - k * blockLen)

/-- Blocks of the torrent that compare equal are equal. -/
theorem BlockOf.eq_of_key {block block' : Block} (h : BlockOf metadata block)
    (h' : BlockOf metadata block') (hkey : block.key = block'.key) : block = block' := by
  obtain ⟨hpiece, hoffset⟩ := blockKey_inj.mp hkey
  obtain ⟨k, len, hlen, hk, _, hlength⟩ := h.shape
  obtain ⟨k', len', hlen', hk', _, hlength'⟩ := h'.shape
  rw [← hpiece] at hlen'
  obtain rfl : len = len' := Except.ok.inj (hlen.symm.trans hlen')
  have hsame : k * blockLen = k' * blockLen := by omega
  rw [← hsame, ← hlength] at hlength'
  obtain ⟨_, _, _⟩ := block
  obtain ⟨_, _, _⟩ := block'
  simp_all

theorem BlockOf.length_pos {block : Block} (h : BlockOf metadata block) : 0 < block.length := by
  obtain ⟨k, len, _, _, hin, hlength⟩ := h.shape
  have hpos : 0 < blockLen := by decide
  omega

/-- All pending blocks are blocks of the torrent. -/
def PendingFit (metadata : TorrentMetadata) (m : PieceManager) : Prop :=
  ∀ block ∈ m.pendingBlocks.elems, BlockOf metadata block

theorem HandsOutBlock.blockOf {index k len next : Nat} {block : Block} (hs : Shaped metadata m)
    (h : HandsOutBlock metadata m index k len next block m') : BlockOf metadata block := by
  obtain ⟨hin, _⟩ := List.getElem?_eq_some_iff.mp h.start
  rw [h.shape]
  exact ⟨hs.offsets_length ▸ hin, k, len, h.length, rfl, h.inside, rfl⟩

theorem PendingFit.step (h : PendingFit metadata m) (hs : Shaped metadata m)
    (ha : Aligned metadata m) {l : Op × Answer} (hstep : m.Step sha1 l m') :
    PendingFit metadata m' := by
  have herased : ∀ b block : Block, block ∈ (m.pendingBlocks.erase b).elems →
      BlockOf metadata block := fun b block hb => h block (KeyedSet.mem_erase.mp hb).1
  cases hstep with
  | requested hr =>
    cases hr with
    | nothing => exact h
    | block _ _ _ hout =>
      obtain ⟨k, len, next, hblock⟩ := hout.block hs ha
      intro b hb
      rw [hblock.target] at hb
      rcases KeyedSet.mem_insert.mp hb with hb | ⟨rfl, _⟩
      · exact h b hb
      · exact hblock.blockOf hs
  | delivered hd =>
    cases hd with
    | finished _ => exact h
    | outOfBounds _ _ _ => exact h
    | stored _ _ => exact herased _
    | discarded _ _ _ _ _ => exact herased _
    | threw _ _ => exact herased _
    | completed _ _ _ _ => exact herased _
  | returned hr =>
    cases hr with
    | unknown _ => exact h
    | freed _ _ => exact herased _

/-- In every reachable state the pending blocks are blocks of the torrent. -/
theorem pendingFit_of_run {history : List (Transition PieceManager (Op × Answer))}
    (hrun : (machine sha1 metadata).Run history m) : PendingFit metadata m := by
  refine hrun.always (I := fun _ s => PendingFit metadata s) (G := fun _ _ => True) ?_ ?_
    fun _ _ _ => trivial
  · rintro s ⟨disk, tracked, rfl⟩ block hb
    simp [new, KeyedSet.empty] at hb
  · intro older s l s' hsofar h _ hlast
    exact h.step (shaped_of_run hsofar) (aligned_of_run hsofar) (machine_step hlast)

/-! ## Selection -/

/-- The bitfield has the size the torrent needs. -/
def SizedFor (metadata : TorrentMetadata) (bitfield : Bytes) : Prop :=
  bitfield.length = (metadata.numPieces + 7) / 8

/-- No bit behind the last piece is set. -/
def SpareClear (metadata : TorrentMetadata) (bitfield : Bytes) : Prop :=
  ∀ i, metadata.numPieces ≤ i → pieceBit bitfield i = false

/-- The peer has a piece that we have not finished, and one of its blocks is
requestable. -/
structure Offers (m : PieceManager) (peerBitfield : Bytes) (p k : Nat) : Prop where
  peerHas : pieceBit peerBitfield p = true
  unfinished : m.finished[p]? = some false
  block : Requestable m p k

/-- A bit that is set lies in the bitfield. -/
theorem lt_of_pieceBit {bitfield : Bytes} {p : Nat} (h : pieceBit bitfield p = true) :
    p / 8 < bitfield.length := by
  unfold pieceBit at h
  split at h
  · rename_i byte hbyte
    exact (List.getElem?_eq_some_iff.mp hbyte).1
  · cases h

theorem mem_wantedPieces {peerBitfield : Bytes} {p : Nat} :
    p ∈ m.wantedPieces peerBitfield ↔
      p / 8 < m.bitfield.length ∧ pieceBit peerBitfield p = true ∧
        pieceBit m.bitfield p = false := by
  rw [wantedPieces, List.mem_filter, List.mem_range, wants, Bool.and_eq_true, Bool.not_eq_true']
  refine and_congr_left fun _ => ?_
  omega

/-- The scan asks for a piece of the torrent exactly when the peer has it and we have not
finished it. -/
theorem mem_wantedPieces_iff (hs : Shaped metadata m) (hbooks : Bookkeeping metadata m)
    {peerBitfield : Bytes} {p : Nat} (hp : p < metadata.numPieces) :
    p ∈ m.wantedPieces peerBitfield ↔
      pieceBit peerBitfield p = true ∧ m.finished[p]? = some false := by
  have hin : p < m.finished.length := hs.finished_length ▸ hp
  have hflag : pieceBit m.bitfield p = false ↔ m.finished[p]? = some false := by
    rw [← Bool.not_eq_true, hbooks.bits p, List.getElem?_eq_getElem hin]
    simp
  rw [mem_wantedPieces, and_iff_right (hs.byte_lt hp), hflag]

/-- The scan goes through the pieces in order. -/
theorem sorted_wantedPieces (peerBitfield : Bytes) :
    (m.wantedPieces peerBitfield).Pairwise (· < ·) :=
  List.pairwise_lt_range.filter _

/-- What stands before an element of an increasing list is what is less than it. -/
theorem mem_before_iff {before after : List Nat} {p q : Nat}
    (h : (before ++ p :: after).Pairwise (· < ·)) (hq : q ∈ before ++ p :: after) :
    q ∈ before ↔ q < p := by
  obtain ⟨_, htail, hacross⟩ := List.pairwise_append.mp h
  refine ⟨fun hmem => hacross q hmem p List.mem_cons_self, fun hlt => ?_⟩
  rcases List.mem_append.mp hq with hmem | hmem
  · exact hmem
  · rcases List.mem_cons.mp hmem with rfl | hmem
    · exact absurd hlt (Nat.lt_irrefl q)
    · exact absurd ((List.pairwise_cons.mp htail).1 q hmem) (Nat.lt_asymm hlt)

/-- What a peer offers is of the torrent. -/
theorem Offers.inTorrent (hs : Shaped metadata m) {peerBitfield : Bytes} {p k : Nat}
    (h : m.Offers peerBitfield p k) : p < metadata.numPieces := by
  rw [← hs.finished_length]
  exact (List.getElem?_eq_some_iff.mp h.unfinished).1

/-- The scan asks for a piece of which a peer offers a block. -/
theorem Offers.wanted (hs : Shaped metadata m) (hbooks : Bookkeeping metadata m)
    {peerBitfield : Bytes} {p k : Nat} (h : m.Offers peerBitfield p k) :
    p ∈ m.wantedPieces peerBitfield :=
  (mem_wantedPieces_iff hs hbooks (h.inTorrent hs)).mpr ⟨h.peerHas, h.unfinished⟩

/-- Without spare bits the scan asks for pieces of the torrent only. -/
theorem SpareClear.inTorrent {peerBitfield : Bytes} (h : SpareClear metadata peerBitfield)
    {p : Nat} (hp : p ∈ m.wantedPieces peerBitfield) : p < metadata.numPieces := by
  refine Nat.lt_of_not_le fun hge => ?_
  have hset := (mem_wantedPieces.mp hp).2.1
  rw [h p hge] at hset
  cases hset

/-- When every piece has a length, a piece that the scan asks for declines or hands a
block out. -/
theorem wantedPiece_cases (hs : Shaped metadata m) (ha : Aligned metadata m)
    (hlens : ∀ p, ∃ len, metadata.info.getPieceLength p = .ok len)
    (hn : metadata.numPieces ≤ 2 ^ 32) {peerBitfield : Bytes}
    (hspare : SpareClear metadata peerBitfield) {p : Nat}
    (hp : p ∈ m.wantedPieces peerBitfield) :
    (m.getNextBlockForPiece (u32 p) = .ok none ∧ ∀ k, ¬ Requestable m p k) ∨
      ∃ block m', m.getNextBlockForPiece (u32 p) = .ok (some (block, m')) ∧
        m.HandsOut p block m' := by
  have hin := hspare.inTorrent hp
  obtain ⟨len, hlen⟩ := hlens p
  rw [u32_of_lt (Nat.lt_of_lt_of_le hin hn)]
  exact getNextBlockForPiece_cases hs ha hin hlen

/-- A piece that declines has nothing that a peer could offer. -/
theorem not_offers_of_declined (hs : Shaped metadata m) (ha : Aligned metadata m)
    (hlens : ∀ p, ∃ len, metadata.info.getPieceLength p = .ok len)
    (hn : metadata.numPieces ≤ 2 ^ 32) {peerBitfield : Bytes}
    (hspare : SpareClear metadata peerBitfield) {p : Nat}
    (hp : p ∈ m.wantedPieces peerBitfield)
    (hdeclined : m.getNextBlockForPiece (u32 p) = .ok none) (k : Nat) :
    ¬ m.Offers peerBitfield p k := by
  intro ho
  rcases wantedPiece_cases hs ha hlens hn hspare hp with ⟨_, hnot⟩ | ⟨block, m', hsome, _⟩
  · exact hnot k ho.block
  · rw [hsome] at hdeclined
    cases hdeclined

/-- What `requestBlock` does for a peer that announces no piece behind the last one, when
every piece has a length: it hands out the first block the peer offers, or nothing when
there is none. -/
theorem requestBlock_cases (hs : Shaped metadata m) (ha : Aligned metadata m)
    (hbooks : Bookkeeping metadata m)
    (hlens : ∀ p, ∃ len, metadata.info.getPieceLength p = .ok len)
    (hn : metadata.numPieces ≤ 2 ^ 32) {peerBitfield : Bytes}
    (hsize : SizedFor metadata peerBitfield) (hspare : SpareClear metadata peerBitfield) :
    (m.requestBlock peerBitfield = .ok (none, m) ∧ ∀ p k, ¬ m.Offers peerBitfield p k) ∨
    ∃ block m' p k len next, m.requestBlock peerBitfield = .ok (some block, m') ∧
      HandsOutBlock metadata m p k len next block m' ∧ m.Offers peerBitfield p k ∧
      (∀ q j, m.Offers peerBitfield q j → p ≤ q) := by
  have hbytes : m.bitfield.length ≤ peerBitfield.length := by
    rw [hs.bitfield_length, hsize]
  rw [requestBlock_eq hbytes]
  cases hsearch : (m.wantedPieces peerBitfield).findSomeM?
      (fun p => m.getNextBlockForPiece (u32 p)) with
  | error e =>
    obtain ⟨before, p, after, hsplit, _, herror⟩ :=
      (findSomeM?_eq_iff (by simp)).mp hsearch
    have hp : p ∈ m.wantedPieces peerBitfield := by rw [hsplit]; simp
    rcases wantedPiece_cases hs ha hlens hn hspare hp with ⟨hnone, _⟩ | ⟨block, m', hsome, _⟩
    · rw [hnone] at herror
      cases herror
    · rw [hsome] at herror
      cases herror
  | ok found =>
    cases found with
    | none =>
      refine Or.inl ⟨rfl, fun p k ho => ?_⟩
      have hp := ho.wanted hs hbooks
      exact not_offers_of_declined hs ha hlens hn hspare hp
        (findSomeM?_eq_none.mp hsearch p hp) k ho
    | some found =>
      obtain ⟨block, m'⟩ := found
      obtain ⟨before, p, after, hsplit, hbefore, hfound⟩ := findSomeM?_eq_some.mp hsearch
      have hp : p ∈ m.wantedPieces peerBitfield := by rw [hsplit]; simp
      obtain ⟨hpeer, hunfinished⟩ := (mem_wantedPieces_iff hs hbooks (hspare.inTorrent hp)).mp hp
      rcases wantedPiece_cases hs ha hlens hn hspare hp with ⟨hnone, _⟩ | ⟨block', m'', hsome, hout⟩
      · rw [hnone] at hfound
        cases hfound
      · rw [hsome] at hfound
        cases hfound
        obtain ⟨k, len, next, hblock⟩ := hout.block hs ha
        refine Or.inr ⟨block, m', p, k, len, next, rfl, hblock,
          ⟨hpeer, hunfinished, (hblock.first hs).1⟩, fun q j ho => ?_⟩
        -- the scan came to a piece before this one, and went on
        refine Nat.le_of_not_lt fun hlt => ?_
        have hq := ho.wanted hs hbooks
        have hsorted := m.sorted_wantedPieces peerBitfield
        rw [hsplit] at hsorted
        have hmem := (mem_before_iff hsorted (hsplit ▸ hq)).mpr hlt
        exact not_offers_of_declined hs ha hlens hn hspare hq (hbefore q hmem) j ho

/-- The block `block` is the one to hand out to a peer with this bitfield, and `m'` is the
state in which it is pending. -/
structure Selected (metadata : TorrentMetadata) (m : PieceManager) (peerBitfield : Bytes)
    (block : Block) (m' : PieceManager) : Prop where
  peerHas : pieceBit peerBitfield block.pieceIndex = true
  missing : pieceBit m.bitfield block.pieceIndex = false
  aligned : blockLen ∣ block.offset
  length : ∃ len, metadata.info.getPieceLength block.pieceIndex = .ok len ∧
    block.length = min blockLen (len - block.offset) ∧ 0 < block.length ∧
    block.offset + block.length < 2 ^ 32
  fresh : ¬ m.pendingBlocks.Has block.key
  offered : ∃ k, block.offset = k * blockLen ∧ m.Offers peerBitfield block.pieceIndex k
  lowest : ∀ q j, m.Offers peerBitfield q j → block.pieceIndex ≤ q
  first : ∀ j, m.Offers peerBitfield block.pieceIndex j → block.offset ≤ j * blockLen
  target : m' = { m with
    pendingBlocks := m.pendingBlocks.insert block
    nextOffsets := m.nextOffsets.set block.pieceIndex (block.offset + block.length) }

theorem HandsOutBlock.selected (hs : Shaped metadata m) (hbooks : Bookkeeping metadata m)
    {peerBitfield : Bytes} {p k len next : Nat} {block : Block}
    (h : HandsOutBlock metadata m p k len next block m') (ho : m.Offers peerBitfield p k)
    (hlowest : ∀ q j, m.Offers peerBitfield q j → p ≤ q) :
    Selected metadata m peerBitfield block m' := by
  have hwanted := ho.wanted hs hbooks
  have hlt := (TorrentMetadata.Info.getPieceLength_le h.length).2
  have hinside := h.inside
  have hpos : 0 < blockLen := by decide
  have htarget := h.target
  obtain rfl := h.shape
  exact
    { peerHas := ho.peerHas
      missing := (mem_wantedPieces.mp hwanted).2.2
      aligned := Nat.dvd_mul_left _ _
      length := ⟨len, h.length, rfl, by simp only; omega, by simp only; omega⟩
      fresh := h.free
      offered := ⟨k, rfl, ho⟩
      lowest := hlowest
      first := fun j hj => Nat.mul_le_mul_right _ ((h.first hs).2 j hj.block)
      target := htarget }

/-- **Block selection.**  In every reachable state, for every bitfield of the right size
without spare bits, `requestBlock` returns nothing exactly when, in every piece that the
peer has and we have not finished, every block from the start of its search on is
pending; otherwise it returns the first block of the first piece for which that is not
so, and makes it pending.  All pending blocks have the shape of such a block, and blocks
of that shape that compare equal have equal lengths.  That there are at most `2 ^ 32`
pieces is what the size limit of the loader gives, see `Loader.numPieces_le`. -/
theorem requestBlock_selects (h1 : 1 ≤ metadata.info.pieceLength)
    (h2 : metadata.info.pieceLength < 2 ^ 32) (hn : metadata.numPieces ≤ 2 ^ 32)
    {history : List (Transition PieceManager (Op × Answer))}
    (hrun : (machine sha1 metadata).Run history m) :
    (∀ peerBitfield, SizedFor metadata peerBitfield → SpareClear metadata peerBitfield →
      ∃ r m', m.requestBlock peerBitfield = .ok (r, m') ∧
        (r = none ↔ ∀ p len k, pieceBit peerBitfield p = true → m.finished[p]? = some false →
          metadata.info.getPieceLength p = .ok len → k * blockLen < len → Free m p k →
            Pending m p k) ∧
        (r = none → m' = m) ∧
        ∀ block, r = some block → Selected metadata m peerBitfield block m') ∧
    (∀ block ∈ m.pendingBlocks.elems, BlockOf metadata block ∧ 0 < block.length) ∧
    ∀ block block', BlockOf metadata block → BlockOf metadata block' → block.key = block'.key →
      block.length = block'.length := by
  have hs := shaped_of_run hrun
  have hbooks := bookkeeping_of_run hrun
  have hlens : ∀ p, ∃ len, metadata.info.getPieceLength p = .ok len := by
    intro p
    obtain ⟨len, hlen, _⟩ := TorrentMetadata.Info.getPieceLength_pos h1 h2 p
    exact ⟨len, hlen⟩
  refine ⟨fun peerBitfield hsize hspare => ?_, fun block hb => ?_, fun block block' h h' hkey => ?_⟩
  · rcases requestBlock_cases hs (aligned_of_run hrun) hbooks hlens hn hsize hspare with
      ⟨hcall, hnone⟩ | ⟨block, m', p, k, len, next, hcall, hblock, ho, hlowest⟩
    · refine ⟨none, m, hcall, iff_of_true rfl ?_, fun _ => rfl, by simp⟩
      intro p len k hpeer hunfinished hlen hin hfree
      by_contra hidle
      have hlen' : m.getPieceLength p = .ok len := by rw [getPieceLength, hs.metadata_eq, hlen]
      exact hnone p k ⟨hpeer, hunfinished, ⟨len, hlen', hin⟩, hfree, hidle⟩
    · refine ⟨some block, m', hcall, iff_of_false (by simp) fun hall => ?_, by simp, ?_⟩
      · exact ho.block.idle
          (hall p len k ho.peerHas ho.unfinished hblock.length hblock.inside ho.block.free)
      · intro block' heq
        cases heq
        exact hblock.selected hs hbooks ho hlowest
  · have hof := pendingFit_of_run hrun block hb
    exact ⟨hof, hof.length_pos⟩
  · rw [h.eq_of_key h' hkey]

/-- Behind its last byte a bitfield has no bits. -/
theorem spareClear_of_bits {bitfield : Bytes}
    (h : ∀ i < 8 * bitfield.length, metadata.numPieces ≤ i → pieceBit bitfield i = false) :
    SpareClear metadata bitfield := by
  intro i hi
  by_cases hin : i < 8 * bitfield.length
  · exact h i hin hi
  · rw [pieceBit, List.getElem?_eq_none (by omega)]

/-- A torrent of one piece of three blocks. -/
def threeBlocks : TorrentMetadata := onePiece sevenDigest 32769

/-- Two blocks are asked for, and the first one is returned and asked for again.  The search
goes on at the second, which is still pending, and finds the third. -/
theorem requestBlock_selects_behindPending :
    ∃ history m m', (machine sampleSha1 threeBlocks).Run history m ∧
      m.pendingBlocks.Has (blockKey 0 16384) ∧ m.nextOffsets = [16384] ∧
      Selected threeBlocks m [128] ⟨0, 32768, 1⟩ m' := by
  have hcalls : (runOps sampleSha1 (new threeBlocks emptyFile true)
      [.requestBlock [128], .requestBlock [128], .returnBlock ⟨0, 0, 16384⟩,
        .requestBlock [128]] []).toOption.any (fun r =>
      decide (r.2.pendingBlocks.Has (blockKey 0 16384) ∧ r.2.nextOffsets = [16384]) &&
        (r.2.requestBlock [128]).toOption.any (fun found =>
          decide (found.1 = some ⟨0, 32768, 1⟩))) = true := by
    decide +kernel
  obtain ⟨history, m, hrun, hchecks⟩ := exists_run hcalls
  obtain ⟨hgap, hfound⟩ := Bool.and_eq_true_iff.mp hchecks
  obtain ⟨hpending, hnext⟩ := of_decide_eq_true hgap
  obtain ⟨r, m', hcall, _, _, hselected⟩ :=
    (requestBlock_selects (by decide) (by decide) (by decide) hrun).1 [128] rfl
      (spareClear_of_bits (by decide))
  rw [hcall] at hfound
  exact ⟨history, m, m', hrun, hpending, hnext, hselected _ (of_decide_eq_true hfound)⟩

end PieceManager

end BitTorrentClient
