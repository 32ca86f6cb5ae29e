/-
  App/PieceManager/Offers.lean --- all the blocks there are to ask a peer for.

  `requestBlock` hands out the first block that a peer offers, and what the peer offers
  afterwards is the rest.  So the blocks that one call after another hands out are those
  that the peer offers, in order.
-/
import BitTorrentClient.App.PieceManager.Selection
import Mathlib.Data.Finset.Sort
import Mathlib.Data.Finite.Prod

set_option autoImplicit false

namespace BitTorrentClient

open Library

namespace PieceManager

variable {sha1 : Bytes → Sha1Hash} {metadata : TorrentMetadata} {m m' : PieceManager}
  {peerBitfield : Bytes} {p k : Nat}

/-! ## In the order of the scan -/

/-- The blocks that are offered, each once, in the order in which the scan finds them. -/
structure InOrder (offered : Nat → Nat → Prop) (blocks : List BlockKey) : Prop where
  sorted : blocks.Pairwise (· < ·)
  mem_iff : ∀ b, b ∈ blocks ↔ ∃ p k, b = blockKey p (k * blockLen) ∧ offered p k

theorem blockKey_mul_inj {p q k j : Nat} :
    blockKey p (k * blockLen) = blockKey q (j * blockLen) ↔ p = q ∧ k = j := by
  rw [blockKey_inj]
  refine and_congr_right fun _ => ⟨fun h => ?_, fun h => by rw [h]⟩
  exact Nat.eq_of_mul_eq_mul_right (by decide) h

theorem InOrder.offered_iff {offered : Nat → Nat → Prop} {blocks : List BlockKey}
    (h : InOrder offered blocks) : blockKey p (k * blockLen) ∈ blocks ↔ offered p k := by
  rw [h.mem_iff]
  constructor
  · rintro ⟨q, j, hkey, ho⟩
    obtain ⟨rfl, rfl⟩ := blockKey_mul_inj.mp hkey
    exact ho
  · exact fun ho => ⟨p, k, rfl, ho⟩

theorem InOrder.congr {offered offered' : Nat → Nat → Prop} {blocks : List BlockKey}
    (h : InOrder offered blocks) (hiff : ∀ p k, offered p k ↔ offered' p k) :
    InOrder offered' blocks :=
  ⟨h.sorted, fun b => (h.mem_iff b).trans
    (exists_congr fun p => exists_congr fun k => and_congr_right fun _ => hiff p k)⟩

theorem inOrder_nil_iff {offered : Nat → Nat → Prop} :
    InOrder offered [] ↔ ∀ p k, ¬ offered p k := by
  constructor
  · intro h p k ho
    exact absurd (h.offered_iff.mpr ho) (by simp)
  · refine fun h => ⟨List.Pairwise.nil, fun b => iff_of_false (by simp) ?_⟩
    rintro ⟨p, k, _, ho⟩
    exact h p k ho

/-- Blocks inside pieces with a length can be put in order. -/
theorem exists_inOrder {offered : Nat → Nat → Prop} {n : Nat}
    (hpiece : ∀ p k, offered p k → p < n)
    (hinside : ∀ p k, offered p k → k * blockLen < 2 ^ 32) :
    ∃ blocks, InOrder offered blocks := by
  have hfinite : {b | ∃ p k, b = blockKey p (k * blockLen) ∧ offered p k}.Finite := by
    have hbox : (Set.image2 blockKey {p | p < n} {o | o < 2 ^ 32}).Finite :=
      (Set.finite_lt_nat n).image2 _ (Set.finite_lt_nat _)
    refine hbox.subset ?_
    rintro b ⟨p, k, rfl, ho⟩
    exact ⟨p, hpiece p k ho, k * blockLen, hinside p k ho, rfl⟩
  refine ⟨hfinite.toFinset.sort, ?_, fun b => ?_⟩
  · exact (Finset.sortedLT_sort _).pairwise
  · rw [Finset.mem_sort, Set.Finite.mem_toFinset]
    exact Iff.rfl

/-! ## Handing out one block after another -/

/-- What a peer offers after a block was handed out: everything else. -/
theorem HandsOutBlock.offers_iff {index j len next : Nat} {block : Block} (hs : Shaped metadata m)
    (h : HandsOutBlock metadata m index j len next block m') :
    m'.Offers peerBitfield p k ↔
      m.Offers peerBitfield p k ∧ blockKey p (k * blockLen) ≠ block.key := by
  obtain ⟨hfirst, hleast⟩ := h.first hs
  have hkey : block.key = blockKey index (j * blockLen) := by rw [h.shape]; rfl
  have hidx := (List.getElem?_eq_some_iff.mp h.start).1
  have hpending : ∀ q i, Pending m' q i ↔
      Pending m q i ∨ blockKey q (i * blockLen) = block.key := by
    intro q i
    rw [Pending, Pending, h.target]
    exact KeyedSet.has_insert
  have hlength : ∀ q, m'.getPieceLength q = m.getPieceLength q := by
    intro q
    rw [h.target]
    rfl
  have hflag : m'.finished = m.finished := by rw [h.target]
  constructor
  · rintro ⟨hpeer, hunfinished, ⟨hinside, ⟨start, hstart, hle⟩, hidle⟩⟩
    rw [hflag] at hunfinished
    rw [hlength] at hinside
    rw [hpending, not_or] at hidle
    refine ⟨⟨hpeer, hunfinished, hinside, ?_, hidle.1⟩, hidle.2⟩
    rw [h.target] at hstart
    by_cases heq : p = index
    · subst heq
      have hstart' : j * blockLen + min blockLen (len - j * blockLen) = start := by
        simpa [hidx] using hstart
      have hafter := h.after
      exact ⟨next, h.start, by omega⟩
    · exact ⟨start, by simpa [List.getElem?_set_ne (Ne.symm heq)] using hstart, hle⟩
  · rintro ⟨⟨hpeer, hunfinished, hblock⟩, hne⟩
    refine ⟨hpeer, hflag ▸ hunfinished, ⟨hlength p ▸ hblock.inside, ?_, ?_⟩⟩
    · by_cases heq : p = index
      · subst heq
        -- the block is behind the one that was handed out
        have hlt : j < k := by
          refine Nat.lt_of_le_of_ne (hleast k hblock) fun hsame => hne ?_
          rw [hkey, hsame]
        have hbehind : (j + 1) * blockLen ≤ k * blockLen := Nat.mul_le_mul_right _ hlt
        refine ⟨j * blockLen + min blockLen (len - j * blockLen), by simp [h.target, hidx], ?_⟩
        rw [Nat.succ_mul] at hbehind
        omega
      · obtain ⟨start, hstart, hle⟩ := hblock.free
        exact ⟨start, by simpa [h.target, List.getElem?_set_ne (Ne.symm heq)] using hstart, hle⟩
    · rw [hpending]
      exact not_or.mpr ⟨hblock.idle, hne⟩

/-- No block that a peer offers comes before the one that is handed out. -/
theorem HandsOutBlock.key_le {index j len next : Nat} {block : Block} (hs : Shaped metadata m)
    (h : HandsOutBlock metadata m index j len next block m')
    (hlowest : ∀ q i, m.Offers peerBitfield q i → index ≤ q) (ho : m.Offers peerBitfield p k) :
    block.key ≤ blockKey p (k * blockLen) := by
  rw [h.shape]
  refine Prod.Lex.toLex_le_toLex.mpr ?_
  rcases Nat.lt_or_eq_of_le (hlowest p k ho) with hlt | rfl
  · exact Or.inl hlt
  · exact Or.inr ⟨rfl, Nat.mul_le_mul_right _ ((h.first hs).2 k ho.block)⟩

theorem InOrder.tail {offered : Nat → Nat → Prop} {b : BlockKey} {rest : List BlockKey}
    (h : InOrder offered (b :: rest)) :
    InOrder (fun p k => offered p k ∧ blockKey p (k * blockLen) ≠ b) rest := by
  obtain ⟨hbefore, hsorted⟩ := List.pairwise_cons.mp h.sorted
  refine ⟨hsorted, fun c => ?_⟩
  have hmem : c ∈ rest ↔ c ∈ b :: rest ∧ c ≠ b := by
    constructor
    · exact fun hc => ⟨List.mem_cons_of_mem b hc, ne_of_gt (hbefore c hc)⟩
    · exact fun hc => (List.mem_cons.mp hc.1).resolve_left hc.2
  rw [hmem, h.mem_iff]
  constructor
  · rintro ⟨⟨p, k, rfl, ho⟩, hne⟩
    exact ⟨p, k, rfl, ho, hne⟩
  · rintro ⟨p, k, rfl, ho, hne⟩
    exact ⟨⟨p, k, rfl, ho⟩, hne⟩

/-- `requestBlock` hands out the first of the blocks that the peer offers, and leaves the
others. -/
theorem requestBlock_inOrder {history : List (Transition PieceManager (Op × Answer))}
    (hrun : (machine sha1 metadata).Run history m)
    (hlens : ∀ p, ∃ len, metadata.info.getPieceLength p = .ok len)
    (hn : metadata.numPieces ≤ 2 ^ 32) (hsize : SizedFor metadata peerBitfield)
    (hspare : SpareClear metadata peerBitfield) {blocks : List BlockKey}
    (h : InOrder (m.Offers peerBitfield) blocks) :
    (blocks = [] ∧ m.requestBlock peerBitfield = .ok (none, m)) ∨
      ∃ block rest m', blocks = block.key :: rest ∧
        m.requestBlock peerBitfield = .ok (some block, m') ∧
        InOrder (m'.Offers peerBitfield) rest := by
  have hs := shaped_of_run hrun
  rcases requestBlock_cases hs (aligned_of_run hrun) (bookkeeping_of_run hrun) hlens hn hsize
    hspare with ⟨hcall, hnone⟩ | ⟨block, m', p, k, len, next, hcall, hblock, ho, hlowest⟩
  · refine Or.inl ⟨List.eq_nil_iff_forall_not_mem.mpr fun b hb => ?_, hcall⟩
    obtain ⟨p, k, _, ho⟩ := (h.mem_iff b).mp hb
    exact hnone p k ho
  · have hkey : block.key = blockKey p (k * blockLen) := by rw [hblock.shape]; rfl
    have hmem : block.key ∈ blocks := hkey ▸ h.offered_iff.mpr ho
    cases blocks with
    | nil => cases hmem
    | cons b rest =>
      obtain rfl : block.key = b := by
        obtain ⟨q, j, rfl, hfirst⟩ := (h.mem_iff b).mp List.mem_cons_self
        have hle := hblock.key_le hs hlowest hfirst
        rcases List.mem_cons.mp hmem with heq | hlater
        · exact heq
        · exact absurd ((List.pairwise_cons.mp h.sorted).1 _ hlater) (not_lt.mpr hle)
      exact Or.inr ⟨block, rest, m', rfl, hcall,
        h.tail.congr fun q j => (hblock.offers_iff hs).symm⟩

theorem exists_inOrder_offers (hs : Shaped metadata m) (peerBitfield : Bytes) :
    ∃ blocks, InOrder (m.Offers peerBitfield) blocks := by
  refine exists_inOrder (fun p k ho => ho.inTorrent hs) fun p k ho => ?_
  obtain ⟨len, hlen, hinside⟩ := ho.block.inside
  rw [getPieceLength, hs.metadata_eq] at hlen
  exact Nat.lt_trans hinside (TorrentMetadata.Info.getPieceLength_le hlen).2

/-! ## Pieces with a length -/

/-- A torrent with a block has pieces with a length. -/
theorem BlockOf.lengths {block : Block} (h : BlockOf metadata block) (p : Nat) :
    ∃ len, metadata.info.getPieceLength p = .ok len := by
  obtain ⟨k, len, hlen, _, hinside, _⟩ := h.shape
  have hpos : u32 metadata.info.pieceLength ≠ 0 := by
    intro hzero
    simp only [TorrentMetadata.Info.getPieceLength, hzero] at hlen
    split at hlen
    · cases hlen
    · cases hlen
      exact absurd hinside (Nat.not_lt_zero _)
  simp only [TorrentMetadata.Info.getPieceLength, if_neg hpos]
  split
  · split
    · exact ⟨_, rfl⟩
    · exact ⟨_, rfl⟩
  · exact ⟨_, rfl⟩

end PieceManager

end BitTorrentClient
