/-
  Library/Assembly.lean --- putting a sequence together from fragments.

  A buffer of known length is filled by writing fragments into it, in any order
  and with any overlaps.  Two questions are answered.  When is the buffer the
  sequence the fragments were cut from: once they cover it.  When do they cover
  it, if only their number is kept: when the buffer is cut into blocks of one
  size and every fragment completed a block that was not complete before, then as
  many fragments as there are blocks cover it.

  Lists of fragments are read newest first.
-/
import BitTorrentClient.Library.ByteRange
import Mathlib.Data.Finset.Card
import Mathlib.Data.Finset.Range

set_option autoImplicit false

namespace BitTorrentClient.Library

variable {α : Type}

/-- A range of elements, with the position of the first one. -/
structure Fragment (α : Type) where
  offset : Nat
  elems : List α
  deriving DecidableEq, Repr

namespace Fragment

/-- The position `b` is in the range. -/
def Touches (f : Fragment α) (b : Nat) : Prop :=
  f.offset ≤ b ∧ b < f.offset + f.elems.length

instance (f : Fragment α) (b : Nat) : Decidable (f.Touches b) :=
  inferInstanceAs (Decidable (_ ∧ _))

/-- The range ends inside a buffer of this length. -/
def Fits (f : Fragment α) (len : Nat) : Prop := f.offset + f.elems.length ≤ len

/-- The elements are those of `xs` in the same range. -/
def CutFrom (f : Fragment α) (xs : List α) : Prop :=
  f.elems = slice xs f.offset f.elems.length

/-- What a position of the range holds is what the sequence holds there. -/
theorem CutFrom.getElem? {f : Fragment α} {xs : List α} (h : f.CutFrom xs) {b : Nat}
    (hb : f.Touches b) : f.elems[b - f.offset]? = xs[b]? := by
  obtain ⟨hle, hlt⟩ := hb
  rw [h, getElem?_slice, if_pos (by omega), Nat.add_sub_cancel' hle]

end Fragment

/-- Some fragment has the position `b` in its range. -/
def Touched (fs : List (Fragment α)) (b : Nat) : Prop := ∃ f ∈ fs, f.Touches b

instance (fs : List (Fragment α)) (b : Nat) : Decidable (Touched fs b) :=
  inferInstanceAs (Decidable (∃ f ∈ fs, f.Touches b))

/-- Every position of a buffer of this length is in the range of some fragment. -/
def Covers (fs : List (Fragment α)) (len : Nat) : Prop := ∀ b < len, Touched fs b

instance (fs : List (Fragment α)) (len : Nat) : Decidable (Covers fs len) :=
  inferInstanceAs (Decidable (∀ b < len, Touched fs b))

theorem touched_cons {f : Fragment α} {fs : List (Fragment α)} {b : Nat} :
    Touched (f :: fs) b ↔ f.Touches b ∨ Touched fs b := by
  simp [Touched]

@[simp] theorem not_touched_nil (b : Nat) : ¬ Touched ([] : List (Fragment α)) b := by
  simp [Touched]

/-! ## The buffer -/

/-- The buffer after the fragments were written into one that is filled with `gap`. -/
def assemble (gap : α) (len : Nat) : List (Fragment α) → List α
  | [] => List.replicate len gap
  | f :: older => overwrite gap (assemble gap len older) f.offset f.elems

theorem length_assemble {gap : α} {len : Nat} {fs : List (Fragment α)}
    (hfits : ∀ f ∈ fs, f.Fits len) : (assemble gap len fs).length = len := by
  induction fs with
  | nil => exact List.length_replicate
  | cons f older ih =>
    obtain ⟨hf, holder⟩ := List.forall_mem_cons.mp hfits
    have hlen := ih holder
    rw [assemble, length_overwrite, hlen]
    rw [hlen]
    exact hf

/-- Where some fragment of a sequence was written, the buffer holds the sequence. -/
theorem getElem?_assemble {gap : α} {xs : List α} {fs : List (Fragment α)}
    (hfits : ∀ f ∈ fs, f.Fits xs.length) (hcut : ∀ f ∈ fs, f.CutFrom xs) {b : Nat}
    (hb : Touched fs b) : (assemble gap xs.length fs)[b]? = xs[b]? := by
  induction fs with
  | nil => exact absurd hb (not_touched_nil b)
  | cons f older ih =>
    obtain ⟨hf, holder⟩ := List.forall_mem_cons.mp hfits
    obtain ⟨hfcut, hcutOlder⟩ := List.forall_mem_cons.mp hcut
    have hlen : (assemble gap xs.length older).length = xs.length := length_assemble holder
    rw [assemble]
    by_cases hin : f.Touches b
    · have hne : f.elems ≠ [] := by
        intro hnil
        have hrange := hin
        simp only [Fragment.Touches, hnil, List.length_nil] at hrange
        omega
      obtain ⟨hle, hlt⟩ := hin
      rw [getElem?_overwrite gap _ _ hne, if_neg (by omega), if_pos hlt]
      exact hfcut.getElem? ⟨hle, hlt⟩
    · have holdb : Touched older b := (touched_cons.mp hb).resolve_left hin
      by_cases hne : f.elems = []
      · rw [hne, overwrite_nil]
        exact ih holder hcutOlder holdb
      · rw [← ih holder hcutOlder holdb, getElem?_overwrite gap _ _ hne]
        simp only [Fragment.Touches, not_and] at hin
        simp only [Fragment.Fits] at hf
        split
        · rw [if_pos (by omega)]
        · rw [if_neg (by omega)]

/-- Fragments of a sequence that cover it put it together. -/
theorem assemble_eq {gap : α} {xs : List α} {fs : List (Fragment α)}
    (hfits : ∀ f ∈ fs, f.Fits xs.length) (hcut : ∀ f ∈ fs, f.CutFrom xs)
    (hcovers : Covers fs xs.length) : assemble gap xs.length fs = xs := by
  apply List.ext_getElem?
  intro b
  by_cases hb : b < xs.length
  · exact getElem?_assemble hfits hcut (hcovers b hb)
  · rw [List.getElem?_eq_none (by rw [length_assemble hfits]; omega),
      List.getElem?_eq_none (by omega)]

/-! ## Counting blocks -/

/-- How many blocks of one size a buffer is cut into; the last may be shorter. -/
def blockCount (size len : Nat) : Nat := (len + size - 1) / size

theorem lt_blockCount_iff {size len k : Nat} (hsize : 0 < size) :
    k < blockCount size len ↔ k * size < len := by
  rw [blockCount, ← Nat.succ_le_iff, Nat.le_div_iff_mul_le hsize, Nat.succ_mul]
  omega

/-- Every position of the block `k` was written. -/
def Complete (size len : Nat) (fs : List (Fragment α)) (k : Nat) : Prop :=
  ∀ b < len, k * size ≤ b → b < (k + 1) * size → Touched fs b

instance (size len : Nat) (fs : List (Fragment α)) (k : Nat) :
    Decidable (Complete size len fs k) :=
  inferInstanceAs (Decidable (∀ b < len, _ → _ → _))

/-- The fragment completes a block that was not complete before. -/
def CompletesBlock (size len : Nat) (fs : List (Fragment α)) (f : Fragment α) : Prop :=
  ∃ k, k * size < len ∧ ¬ Complete size len fs k ∧ Complete size len (f :: fs) k

/-- The blocks that are complete. -/
def completed (size len : Nat) (fs : List (Fragment α)) : Finset Nat :=
  (Finset.range (blockCount size len)).filter (Complete size len fs)

theorem mem_completed {size len k : Nat} {fs : List (Fragment α)} (hsize : 0 < size) :
    k ∈ completed size len fs ↔ k * size < len ∧ Complete size len fs k := by
  rw [completed, Finset.mem_filter, Finset.mem_range, lt_blockCount_iff hsize]

theorem Complete.cons {size len k : Nat} {fs : List (Fragment α)} (h : Complete size len fs k)
    (f : Fragment α) : Complete size len (f :: fs) k :=
  fun b hb hlo hhi => touched_cons.mpr (Or.inr (h b hb hlo hhi))

/-- Completing a block adds one to the number of complete blocks, at least. -/
theorem CompletesBlock.card_lt {size len : Nat} {fs : List (Fragment α)} {f : Fragment α}
    (hsize : 0 < size) (h : CompletesBlock size len fs f) :
    (completed size len fs).card < (completed size len (f :: fs)).card := by
  obtain ⟨k, hin, hbefore, hafter⟩ := h
  apply Finset.card_lt_card
  refine Finset.ssubset_iff_of_subset ?_ |>.mpr ⟨k, ?_, ?_⟩
  · intro j hj
    obtain ⟨hjin, hjdone⟩ := (mem_completed hsize).mp hj
    exact (mem_completed hsize).mpr ⟨hjin, hjdone.cons f⟩
  · exact (mem_completed hsize).mpr ⟨hin, hafter⟩
  · exact fun hk => hbefore ((mem_completed hsize).mp hk).2

/-- With as many complete blocks as there are blocks, the buffer is covered. -/
theorem covers_of_card {size len : Nat} {fs : List (Fragment α)} (hsize : 0 < size)
    (h : blockCount size len ≤ (completed size len fs).card) : Covers fs len := by
  have hall : completed size len fs = Finset.range (blockCount size len) := by
    apply Finset.eq_of_subset_of_card_le (Finset.filter_subset _ _)
    rw [Finset.card_range]
    exact h
  intro b hb
  have hblock : b / size * size ≤ b := Nat.div_mul_le_self b size
  have hmem : b / size ∈ completed size len fs := by
    rw [hall, Finset.mem_range, lt_blockCount_iff hsize]
    omega
  apply ((mem_completed hsize).mp hmem).2 b hb hblock
  rw [Nat.mul_comm]
  exact Nat.lt_mul_div_succ b hsize

/-! ## Whole blocks

The other way to be sure of the count: every fragment is a block of the sequence, all
of it, and no block comes twice. -/

/-- The block `k` of the sequence. -/
def wholeBlock (size : Nat) (xs : List α) (k : Nat) : Fragment α where
  offset := k * size
  elems := slice xs (k * size) size

theorem length_wholeBlock (size : Nat) (xs : List α) (k : Nat) :
    (wholeBlock size xs k).elems.length = min size (xs.length - k * size) :=
  length_slice xs (k * size) size

theorem wholeBlock_fits {size k : Nat} {xs : List α} (hin : k * size < xs.length) :
    (wholeBlock size xs k).Fits xs.length := by
  rw [Fragment.Fits, length_wholeBlock]
  simp only [wholeBlock]
  omega

theorem wholeBlock_cutFrom (size : Nat) (xs : List α) (k : Nat) :
    (wholeBlock size xs k).CutFrom xs := by
  rw [Fragment.CutFrom, length_wholeBlock]
  simp only [wholeBlock, slice, List.take_eq_take_iff, List.length_drop]
  omega

/-- The block that holds a position. -/
theorem wholeBlock_touches {size b : Nat} {xs : List α} (hsize : 0 < size) (hb : b < xs.length)
    (k : Nat) : (wholeBlock size xs k).Touches b ↔ k = b / size := by
  rw [Fragment.Touches, length_wholeBlock]
  simp only [wholeBlock]
  have hdiv : k = b / size ↔ k * size ≤ b ∧ b < (k + 1) * size := by
    rw [eq_comm, Nat.div_eq_iff hsize, Nat.succ_mul]
    omega
  rw [hdiv, Nat.succ_mul]
  omega

/-- The fragments are the blocks `ks` of the sequence, each of them once. -/
structure WholeBlocks (size : Nat) (xs : List α) (ks : List Nat) (fs : List (Fragment α)) :
    Prop where
  blocks : fs = ks.map (wholeBlock size xs)
  distinct : ks.Nodup
  inside : ∀ k ∈ ks, k * size < xs.length

namespace WholeBlocks

variable {size : Nat} {xs : List α} {ks : List Nat} {fs : List (Fragment α)}

theorem nil (size : Nat) (xs : List α) : WholeBlocks size xs [] [] :=
  ⟨rfl, List.nodup_nil, by simp⟩

theorem cons (h : WholeBlocks size xs ks fs) {k : Nat} (hin : k * size < xs.length)
    (hnew : k ∉ ks) : WholeBlocks size xs (k :: ks) (wholeBlock size xs k :: fs) where
  blocks := by rw [h.blocks, List.map_cons]
  distinct := List.nodup_cons.mpr ⟨hnew, h.distinct⟩
  inside := List.forall_mem_cons.mpr ⟨hin, h.inside⟩

theorem fits (h : WholeBlocks size xs ks fs) : ∀ f ∈ fs, f.Fits xs.length := by
  intro f hf
  rw [h.blocks] at hf
  obtain ⟨k, hk, rfl⟩ := List.mem_map.mp hf
  exact wholeBlock_fits (h.inside k hk)

theorem cutFrom (h : WholeBlocks size xs ks fs) : ∀ f ∈ fs, f.CutFrom xs := by
  intro f hf
  rw [h.blocks] at hf
  obtain ⟨k, _, rfl⟩ := List.mem_map.mp hf
  exact wholeBlock_cutFrom size xs k

theorem subset_range (hsize : 0 < size) (h : WholeBlocks size xs ks fs) :
    ks.toFinset ⊆ Finset.range (blockCount size xs.length) := by
  intro k hk
  rw [Finset.mem_range, lt_blockCount_iff hsize]
  exact h.inside k (List.mem_toFinset.mp hk)

/-- There are no more of them than blocks. -/
theorem length_le (hsize : 0 < size) (h : WholeBlocks size xs ks fs) :
    fs.length ≤ blockCount size xs.length := by
  have hcard := Finset.card_le_card (h.subset_range hsize)
  rw [List.toFinset_card_of_nodup h.distinct, Finset.card_range] at hcard
  rw [h.blocks, List.length_map]
  exact hcard

/-- They cover the sequence exactly when there are as many of them as blocks. -/
theorem covers_iff (hsize : 0 < size) (h : WholeBlocks size xs ks fs) :
    Covers fs xs.length ↔ fs.length = blockCount size xs.length := by
  have hlen : fs.length = ks.toFinset.card := by
    rw [h.blocks, List.length_map, List.toFinset_card_of_nodup h.distinct]
  constructor
  · intro hcovers
    refine Nat.le_antisymm (h.length_le hsize) ?_
    rw [hlen, ← Finset.card_range (blockCount size xs.length)]
    apply Finset.card_le_card
    intro k hk
    have hin := (lt_blockCount_iff hsize).mp (Finset.mem_range.mp hk)
    obtain ⟨f, hf, htouches⟩ := hcovers _ hin
    rw [h.blocks] at hf
    obtain ⟨k', hk', rfl⟩ := List.mem_map.mp hf
    rw [wholeBlock_touches hsize hin, Nat.mul_div_cancel _ hsize] at htouches
    exact List.mem_toFinset.mpr (htouches ▸ hk')
  · intro hcount b hb
    have hall : ks.toFinset = Finset.range (blockCount size xs.length) := by
      apply Finset.eq_of_subset_of_card_le (h.subset_range hsize)
      rw [Finset.card_range, ← hlen, hcount]
    have hmem : b / size ∈ ks := by
      rw [← List.mem_toFinset, hall, Finset.mem_range, lt_blockCount_iff hsize]
      exact Nat.lt_of_le_of_lt (Nat.div_mul_le_self b size) hb
    refine ⟨wholeBlock size xs (b / size), ?_, (wholeBlock_touches hsize hb _).mpr rfl⟩
    rw [h.blocks]
    exact List.mem_map_of_mem hmem

/-- As many of them as blocks put the sequence together. -/
theorem assemble_eq (hsize : 0 < size) (h : WholeBlocks size xs ks fs) {gap : α}
    (hcount : fs.length = blockCount size xs.length) : assemble gap xs.length fs = xs :=
  Library.assemble_eq h.fits h.cutFrom ((h.covers_iff hsize).mpr hcount)

end WholeBlocks

/-! ## Tilings -/

/-- The ranges, given by position and length, follow each other from `lo` to `hi`
without a gap or an overlap, and none is empty. -/
def Tiles (lo : Nat) : List (Nat × Nat) → Nat → Prop
  | [], hi => lo = hi
  | range :: rest, hi => range.1 = lo ∧ 0 < range.2 ∧ Tiles (lo + range.2) rest hi

theorem Tiles.snoc {ranges : List (Nat × Nat)} {lo mid n : Nat} (h : Tiles lo ranges mid)
    (hpos : 0 < n) : Tiles lo (ranges ++ [(mid, n)]) (mid + n) := by
  induction ranges generalizing lo with
  | nil =>
    obtain rfl : lo = mid := h
    exact ⟨rfl, hpos, rfl⟩
  | cons range rest ih => exact ⟨h.1, h.2.1, ih h.2.2⟩

/-- The first blocks of a buffer tile it up to where the last of them ends. -/
theorem tiles_blocks {size len j : Nat} (hsize : 0 < size) (hin : ∀ k < j, k * size < len) :
    Tiles 0 ((List.range j).map fun k => (k * size, min size (len - k * size)))
      (min (j * size) len) := by
  induction j with
  | zero => simp [Tiles]
  | succ j ih =>
    have hj := hin j (Nat.lt_succ_self j)
    have hsofar := ih fun k hk => hin k (Nat.lt_succ_of_lt hk)
    rw [Nat.min_eq_left (Nat.le_of_lt hj)] at hsofar
    have hend : min ((j + 1) * size) len = j * size + min size (len - j * size) := by
      rw [Nat.succ_mul]
      omega
    rw [List.range_succ, List.map_append, hend]
    exact hsofar.snoc (by omega)

end BitTorrentClient.Library
