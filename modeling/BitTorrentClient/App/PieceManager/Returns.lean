/-
  App/PieceManager/Returns.lean --- blocks may be returned in any order.

  A session that ends returns its blocks one by one, and other sessions return theirs in
  between.  In a reachable state a return always comes back, and what it does is a total
  function that commutes with itself, whatever the two blocks are.
-/
import BitTorrentClient.App.PieceManager.Selection

set_option autoImplicit false

namespace BitTorrentClient

open Library

namespace PieceManager

variable {sha1 : Bytes → Sha1Hash} {metadata : TorrentMetadata} {m m' : PieceManager}

/-- The loop of `_returnBlocks`. -/
def returnBlocks (m : PieceManager) (blocks : List Block) : Except Fault PieceManager :=
  blocks.foldlM (fun m block => do
    let (_, m') ← m.returnBlock block
    pure m') m

/-! ## One return -/

/-- The state after a block was put back. -/
def putBack (m : PieceManager) (block : Block) : PieceManager :=
  { m with
    nextOffsets :=
      if m.pendingBlocks.Has block.key then
        m.nextOffsets.modify block.pieceIndex (min · block.offset)
      else m.nextOffsets
    pendingBlocks := m.pendingBlocks.erase block }

theorem putBack_of_has {block : Block} (h : m.pendingBlocks.Has block.key) :
    (m.putBack block).nextOffsets = m.nextOffsets.modify block.pieceIndex (min · block.offset) :=
  if_pos h

theorem putBack_of_not_has {block : Block} (h : ¬ m.pendingBlocks.Has block.key) :
    m.putBack block = m := by
  rw [putBack, if_neg h, KeyedSet.erase_of_not_has h]

theorem Returned.eq_putBack {block : Block} {r : Bool} (h : m.Returned block r m') :
    m' = m.putBack block := by
  cases h with
  | unknown hfree => exact (putBack_of_not_has hfree).symm
  | freed hheld hnext =>
    rw [putBack, if_pos hheld, List.modify_eq_set_getElem?, hnext]
    rfl

/-- A return of a reachable state comes back, since pending blocks lie in pieces of the
torrent. -/
theorem returnBlock_eq (hs : Shaped metadata m) (hfit : PendingFit metadata m) (block : Block) :
    ∃ r, m.returnBlock block = .ok (r, m.putBack block) := by
  cases hheld : m.pendingBlocks.contains block with
  | false =>
    have hcall : m.returnBlock block = .ok (false, m) := by
      rw [returnBlock, hheld]
      rfl
    rw [← (returnBlock_returned hcall).eq_putBack]
    exact ⟨false, hcall⟩
  | true =>
    obtain ⟨held, hmem, hkey⟩ := KeyedSet.contains_iff.mp hheld
    obtain ⟨hpiece, _⟩ := blockKey_inj.mp hkey
    have hin : block.pieceIndex < m.nextOffsets.length := by
      rw [← hpiece, hs.offsets_length]
      exact (hfit held hmem).index
    obtain ⟨nextOffsets, hrewind⟩ : ∃ nextOffsets, m.rewind block = .ok nextOffsets := by
      rw [rewind, readAt_eq_ok.mpr (List.getElem?_eq_getElem hin), bind_ok]
      split
      · exact ⟨_, writeAt_eq_ok.mpr ⟨hin, rfl⟩⟩
      · exact ⟨_, rfl⟩
    have hcall : m.returnBlock block = .ok (true,
        { m with nextOffsets := nextOffsets, pendingBlocks := m.pendingBlocks.erase block }) := by
      rw [returnBlock, hheld, if_pos rfl, hrewind, bind_ok]
      rfl
    rw [← (returnBlock_returned hcall).eq_putBack]
    exact ⟨true, hcall⟩

/-- Nothing but the searches and the pending blocks changes, searches move back only, and
no block becomes pending. -/
structure Freer (m m' : PieceManager) : Prop where
  offsets : ∀ p next : Nat, m.nextOffsets[p]? = some next →
    ∃ next' : Nat, m'.nextOffsets[p]? = some next' ∧ next' ≤ next
  pending : ∀ key, m'.pendingBlocks.Has key → m.pendingBlocks.Has key
  frame : m' = { m with nextOffsets := m'.nextOffsets, pendingBlocks := m'.pendingBlocks }

theorem Freer.refl (m : PieceManager) : Freer m m :=
  ⟨fun _ next h => ⟨next, h, Nat.le_refl next⟩, fun _ h => h, rfl⟩

theorem Freer.trans {m'' : PieceManager} (h : Freer m m') (h' : Freer m' m'') : Freer m m'' where
  offsets p next hnext := by
    obtain ⟨next', hnext', hle⟩ := h.offsets p next hnext
    obtain ⟨next'', hnext'', hle'⟩ := h'.offsets p next' hnext'
    exact ⟨next'', hnext'', Nat.le_trans hle' hle⟩
  pending key hkey := h.pending key (h'.pending key hkey)
  frame := by
    rw [h'.frame, h.frame]

theorem Freer.finished (h : Freer m m') : m'.finished = m.finished := by rw [h.frame]

theorem Freer.getPieceLength (h : Freer m m') (p : Nat) :
    m'.getPieceLength p = m.getPieceLength p := by
  rw [h.frame]
  rfl

/-- What was requestable stays requestable. -/
theorem Freer.requestable (h : Freer m m') {p k : Nat} (hr : Requestable m p k) :
    Requestable m' p k := by
  obtain ⟨next, hnext, hle⟩ := hr.free
  obtain ⟨next', hnext', hle'⟩ := h.offsets p next hnext
  refine ⟨?_, ⟨next', hnext', Nat.le_trans hle' hle⟩,
    fun hpending => hr.idle (h.pending _ hpending)⟩
  rw [h.getPieceLength]
  exact hr.inside

theorem freer_putBack (m : PieceManager) (block : Block) : Freer m (m.putBack block) := by
  refine ⟨fun p next hnext => ?_, fun key hkey => (KeyedSet.has_erase.mp hkey).1, rfl⟩
  by_cases hheld : m.pendingBlocks.Has block.key
  · rw [putBack_of_has hheld, List.getElem?_modify, hnext]
    split
    · exact ⟨min next block.offset, rfl, Nat.min_le_left _ _⟩
    · exact ⟨next, rfl, Nat.le_refl next⟩
  · rw [putBack_of_not_has hheld]
    exact ⟨next, hnext, Nat.le_refl next⟩

theorem not_has_putBack (m : PieceManager) (block : Block) :
    ¬ (m.putBack block).pendingBlocks.Has block.key :=
  fun h => (KeyedSet.has_erase.mp h).2 rfl

/-- A pending block that is returned lies behind no search. -/
theorem exists_next_putBack (hs : Shaped metadata m) (hfit : PendingFit metadata m) {block : Block}
    (hheld : m.pendingBlocks.Has block.key) :
    ∃ next, (m.putBack block).nextOffsets[block.pieceIndex]? = some next ∧ next ≤ block.offset := by
  obtain ⟨held, hmem, hkey⟩ := hheld
  obtain ⟨hpiece, _⟩ := blockKey_inj.mp hkey
  have hin : block.pieceIndex < m.nextOffsets.length := by
    rw [← hpiece, hs.offsets_length]
    exact (hfit held hmem).index
  refine ⟨min m.nextOffsets[block.pieceIndex] block.offset, ?_, Nat.min_le_right _ _⟩
  rw [putBack_of_has ⟨held, hmem, hkey⟩, List.getElem?_modify_eq, List.getElem?_eq_getElem hin]
  rfl

/-! ## Two returns -/

/-- Moving searches back commutes. -/
theorem modify_min_comm (offsets : List Nat) (p q o o' : Nat) :
    (offsets.modify p (min · o)).modify q (min · o') =
      (offsets.modify q (min · o')).modify p (min · o) := by
  by_cases hpq : p = q
  · subst hpq
    rw [List.modify_modify_eq, List.modify_modify_eq]
    congr 1
    funext next
    exact Nat.min_right_comm next o o'
  · exact List.modify_modify_ne _ _ _ hpq

/-- The length of the block plays no part. -/
theorem putBack_congr (m : PieceManager) {a b : Block} (h : a.key = b.key) :
    m.putBack a = m.putBack b := by
  obtain ⟨hpiece, hoffset⟩ := blockKey_inj.mp h
  rw [putBack, putBack, KeyedSet.erase_congr _ h, h, hpiece, hoffset]

theorem putBack_comm (m : PieceManager) (a b : Block) :
    (m.putBack a).putBack b = (m.putBack b).putBack a := by
  by_cases hkey : a.key = b.key
  · rw [putBack_congr m hkey, putBack_congr _ hkey]
  · by_cases ha : m.pendingBlocks.Has a.key
    · by_cases hb : m.pendingBlocks.Has b.key
      · have hb' : (m.putBack a).pendingBlocks.Has b.key :=
          KeyedSet.has_erase.mpr ⟨hb, Ne.symm hkey⟩
        have ha' : (m.putBack b).pendingBlocks.Has a.key := KeyedSet.has_erase.mpr ⟨ha, hkey⟩
        have hoffsets : ((m.putBack a).putBack b).nextOffsets =
            ((m.putBack b).putBack a).nextOffsets := by
          rw [putBack_of_has hb', putBack_of_has ha, putBack_of_has ha', putBack_of_has hb,
            modify_min_comm]
        have hpending : ((m.putBack a).putBack b).pendingBlocks =
            ((m.putBack b).putBack a).pendingBlocks := KeyedSet.erase_comm _ _ _
        have hframe := ((freer_putBack m a).trans (freer_putBack _ b)).frame
        rw [hframe, hoffsets, hpending,
          ← ((freer_putBack m b).trans (freer_putBack _ a)).frame]
      · have hb' : ¬ (m.putBack a).pendingBlocks.Has b.key :=
          fun h => hb ((freer_putBack m a).pending _ h)
        rw [putBack_of_not_has hb', putBack_of_not_has hb]
    · have ha' : ¬ (m.putBack b).pendingBlocks.Has a.key :=
        fun h => ha ((freer_putBack m b).pending _ h)
      rw [putBack_of_not_has ha', putBack_of_not_has ha]

/-! ## All returns -/

theorem returnBlocks_eq (blocks : List Block)
    {history : List (Transition PieceManager (Op × Answer))}
    (hrun : (machine sha1 metadata).Run history m) :
    m.returnBlocks blocks = .ok (blocks.foldl putBack m) := by
  induction blocks generalizing m history with
  | nil => rfl
  | cons block rest ih =>
    obtain ⟨r, hcall⟩ := returnBlock_eq (shaped_of_run hrun) (pendingFit_of_run hrun) block
    have hstep : (machine sha1 metadata).step m (.returnBlock block, .reply (.ok r))
        (m.putBack block) := by
      change m.apply sha1 (.returnBlock block) = _
      rw [apply, hcall]
      rfl
    have hrest := ih (hrun.snoc hstep)
    rw [returnBlocks] at hrest ⊢
    rw [List.foldlM_cons, hcall, List.foldl_cons]
    exact hrest

theorem freer_foldl (blocks : List Block) (m : PieceManager) :
    Freer m (blocks.foldl putBack m) := by
  induction blocks generalizing m with
  | nil => exact Freer.refl m
  | cons block rest ih => exact (freer_putBack m block).trans (ih (m.putBack block))

theorem not_has_foldl {blocks : List Block} {block : Block} (h : block ∈ blocks)
    (m : PieceManager) : ¬ (blocks.foldl putBack m).pendingBlocks.Has block.key := by
  obtain ⟨before, after, rfl⟩ := List.append_of_mem h
  rw [List.foldl_append, List.foldl_cons]
  exact fun hheld => not_has_putBack _ block ((freer_foldl after _).pending _ hheld)

/-- A listed block that was pending lies behind no search in the end. -/
theorem exists_next_foldl {blocks : List Block} {block : Block} (h : block ∈ blocks)
    {history : List (Transition PieceManager (Op × Answer))}
    (hrun : (machine sha1 metadata).Run history m) (hheld : m.pendingBlocks.Has block.key) :
    ∃ next, (blocks.foldl putBack m).nextOffsets[block.pieceIndex]? = some next ∧
      next ≤ block.offset := by
  -- the order plays no part, so the block may as well come first
  obtain ⟨before, after, rfl⟩ := List.append_of_mem h
  rw [(List.perm_middle).foldl_eq' (fun a _ b _ m => putBack_comm m a b) m, List.foldl_cons]
  obtain ⟨next, hnext, hle⟩ :=
    exists_next_putBack (shaped_of_run hrun) (pendingFit_of_run hrun) hheld
  obtain ⟨next', hnext', hle'⟩ := (freer_foldl (before ++ after) _).offsets _ _ hnext
  exact ⟨next', hnext', Nat.le_trans hle' hle⟩

/-- **Returns commute and free their blocks.**  In every reachable state, returning a list
of blocks comes back with the same state for every order of the list.  Afterwards none of
them is pending, every one that was pending lies behind no search, so that it is
requestable again, and every block that was requestable still is; which pieces are
finished does not change. -/
theorem returnBlocks_perm {history : List (Transition PieceManager (Op × Answer))}
    (hrun : (machine sha1 metadata).Run history m) (blocks : List Block) :
    ∃ m', m.returnBlocks blocks = .ok m' ∧
      (∀ blocks', blocks.Perm blocks' → m.returnBlocks blocks' = .ok m') ∧
      (∀ block ∈ blocks, ¬ m'.pendingBlocks.Has block.key) ∧
      (∀ block ∈ blocks, m.pendingBlocks.Has block.key →
        (∃ next, m'.nextOffsets[block.pieceIndex]? = some next ∧ next ≤ block.offset) ∧
        ∃ k, block.offset = k * blockLen ∧ Requestable m' block.pieceIndex k) ∧
      (∀ p k, Requestable m p k → Requestable m' p k) ∧
      m'.finished = m.finished := by
  have hfreer := freer_foldl blocks m
  refine ⟨blocks.foldl putBack m, returnBlocks_eq blocks hrun, fun blocks' hperm => ?_,
    fun block hblock => not_has_foldl hblock m, fun block hblock hheld => ?_,
    fun p k => hfreer.requestable, hfreer.finished⟩
  · rw [returnBlocks_eq blocks' hrun,
      hperm.foldl_eq' (fun a _ b _ m => putBack_comm m a b) m]
  · obtain ⟨next, hnext, hle⟩ := exists_next_foldl hblock hrun hheld
    refine ⟨⟨next, hnext, hle⟩, ?_⟩
    obtain ⟨held, hmem, hkey⟩ := hheld
    obtain ⟨hpiece, hoffset⟩ := blockKey_inj.mp hkey
    obtain ⟨k, len, hlen, hk, hin, _⟩ := (pendingFit_of_run hrun held hmem).shape
    rw [hpiece] at hlen
    rw [hoffset] at hk
    refine ⟨k, hk, ⟨len, ?_, hin⟩, ⟨next, hnext, hk ▸ hle⟩, fun hpending => ?_⟩
    · rw [hfreer.getPieceLength, getPieceLength, (shaped_of_run hrun).metadata_eq, hlen]
    · refine not_has_foldl hblock m ?_
      rw [Block.key, hk]
      exact hpending

/-- Both blocks of a piece are asked for, and returned in either order. -/
theorem returnBlocks_perm_bothOrders :
    ∃ history m', (machine sampleSha1 twoBlocks).Run history bothAsked ∧
      bothAsked.returnBlocks [⟨0, 16384, 1⟩, ⟨0, 0, 16384⟩] = .ok m' ∧
      bothAsked.returnBlocks [⟨0, 0, 16384⟩, ⟨0, 16384, 1⟩] = .ok m' ∧
      Requestable m' 0 0 ∧ Requestable m' 0 1 := by
  have hrun := run_of_startingAt (twoRequests_run sampleSha1)
  obtain ⟨m', hcall, hperm, _, hback, _⟩ :=
    returnBlocks_perm hrun [⟨0, 16384, 1⟩, ⟨0, 0, 16384⟩]
  have hheld : ∀ block ∈ [(⟨0, 16384, 1⟩ : Block), ⟨0, 0, 16384⟩],
      bothAsked.pendingBlocks.Has block.key := by decide
  have hagain : ∀ block ∈ [(⟨0, 16384, 1⟩ : Block), ⟨0, 0, 16384⟩],
      ∃ k, block.offset = k * 16384 ∧ Requestable m' block.pieceIndex k :=
    fun block hblock => (hback block hblock (hheld block hblock)).2
  obtain ⟨k, hk, hsecond⟩ := hagain ⟨0, 16384, 1⟩ List.mem_cons_self
  obtain ⟨j, hj, hfirst⟩ := hagain ⟨0, 0, 16384⟩ (by decide)
  dsimp only at hk hj
  obtain rfl : k = 1 := by omega
  obtain rfl : j = 0 := by omega
  exact ⟨_, m', hrun, hcall, hperm _ (List.Perm.swap _ _ _), hfirst, hsecond⟩

end PieceManager

end BitTorrentClient
