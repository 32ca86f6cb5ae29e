/-
  Library/ByteRange.lean --- reading and overwriting ranges of a sequence.

  `slice xs pos n` is the range of `n` elements from `pos`; `overwrite gap xs pos
  ys` puts `ys` at `pos`.  An overwrite past the end first extends the sequence
  with `gap`, as a file does; inside the sequence it changes nothing but the
  range.  The two facts every store argument needs are proved once: a range that
  was just written reads back what was written, and a range that ends before the
  write or starts after it is unchanged.
-/
import Mathlib.Data.List.Basic

set_option autoImplicit false

namespace BitTorrentClient.Library

variable {α : Type}

/-- The `n` elements from `pos`, or as many of them as there are. -/
def slice (xs : List α) (pos n : Nat) : List α := (xs.drop pos).take n

/-- Put `ys` at `pos`, extending with `gap` when `pos` is past the end.  Writing
nothing changes nothing, not even the length. -/
def overwrite (gap : α) (xs : List α) (pos : Nat) (ys : List α) : List α :=
  if ys.isEmpty then xs
  else xs.take pos ++ List.replicate (pos - xs.length) gap ++ ys ++ xs.drop (pos + ys.length)

@[simp] theorem overwrite_nil (gap : α) (xs : List α) (pos : Nat) :
    overwrite gap xs pos [] = xs := rfl

theorem getElem?_slice (xs : List α) (pos n i : Nat) :
    (slice xs pos n)[i]? = if i < n then xs[pos + i]? else none := by
  simp [slice, List.getElem?_take, List.getElem?_drop]

/-- A range that runs to the end stops there. -/
theorem slice_min (xs : List α) (pos n : Nat) :
    slice xs pos (min n (xs.length - pos)) = slice xs pos n := by
  simp only [slice, List.take_eq_take_iff, List.length_drop]
  omega

theorem length_slice (xs : List α) (pos n : Nat) :
    (slice xs pos n).length = min n (xs.length - pos) := by
  simp [slice]

/-- Ranges are the same when their positions hold the same. -/
theorem slice_eq_iff {xs ys : List α} {pos n : Nat} :
    slice xs pos n = slice ys pos n ↔ ∀ i, pos ≤ i → i < pos + n → xs[i]? = ys[i]? := by
  constructor
  · intro h i hle hlt
    have hsame := congrArg (fun l => l[i - pos]?) h
    simpa only [getElem?_slice, Nat.sub_lt_left_of_lt_add hle hlt, if_true,
      Nat.add_sub_cancel' hle] using hsame
  · intro h
    refine List.ext_getElem? fun j => ?_
    rw [getElem?_slice, getElem?_slice]
    split
    · rename_i hlt
      exact h (pos + j) (Nat.le_add_right _ _) (Nat.add_lt_add_left hlt pos)
    · rfl

/-- A part of a sequence that was put together. -/
theorem slice_of_append {xs before ys after : List α} {pos n : Nat}
    (h : xs = before ++ ys ++ after) (hpos : before.length = pos) (hn : ys.length = n) :
    slice xs pos n = ys := by
  rw [slice, h, List.append_assoc, List.drop_left' hpos, List.take_left' hn]

/-- Ranges that follow one another are one range. -/
theorem slice_append_slice (xs : List α) (pos n k : Nat) :
    slice xs pos n ++ slice xs (pos + n) k = slice xs pos (n + k) := by
  rw [slice, slice, slice, List.take_add, List.drop_drop]

/-- What every position holds after a write that is not empty. -/
theorem getElem?_overwrite (gap : α) (xs : List α) (pos : Nat) {ys : List α}
    (hys : ys ≠ []) (i : Nat) :
    (overwrite gap xs pos ys)[i]? =
      if i < pos then (if i < xs.length then xs[i]? else some gap)
      else if i < pos + ys.length then ys[i - pos]? else xs[i]? := by
  have hempty : ys.isEmpty = false := by simpa using hys
  have hsofar : (xs.take pos ++ List.replicate (pos - xs.length) gap).length = pos := by
    simp; omega
  rw [overwrite, hempty, if_neg Bool.false_ne_true, List.append_assoc,
    List.getElem?_append, hsofar]
  split
  · rw [List.getElem?_append]
    simp only [List.length_take]
    split
    · rename_i hlt
      rw [if_pos (by omega), List.getElem?_take_of_lt (by omega)]
    · rename_i hge
      rw [if_neg (by omega), List.getElem?_replicate, if_pos (by omega)]
  · rename_i hge
    rw [List.getElem?_append]
    split
    · rw [if_pos (by omega)]
    · rw [if_neg (by omega), List.getElem?_drop]
      congr 1
      omega

/-- A write inside the sequence keeps its length. -/
theorem length_overwrite {gap : α} {xs ys : List α} {pos : Nat}
    (h : pos + ys.length ≤ xs.length) : (overwrite gap xs pos ys).length = xs.length := by
  unfold overwrite
  split
  · rfl
  · simp; omega

/-- A write at the start. -/
theorem overwrite_start (gap : α) (xs ys : List α) :
    overwrite gap xs 0 ys = ys ++ xs.drop ys.length := by
  unfold overwrite
  split
  · rename_i hys
    rw [List.isEmpty_iff.mp hys, List.length_nil, List.drop_zero, List.nil_append]
  · simp

/-- A write of the whole sequence leaves what was written. -/
theorem overwrite_full {gap : α} {xs ys : List α} (h : ys.length = xs.length) :
    overwrite gap xs 0 ys = ys := by
  rw [overwrite_start, h, List.drop_length, List.append_nil]

@[simp] theorem slice_zero (xs : List α) (pos : Nat) : slice xs pos 0 = [] := by
  simp [slice]

/-- A write that ends with the sequence. -/
theorem overwrite_end {gap : α} {xs ys : List α} {pos : Nat} (h : xs.length = pos + ys.length) :
    overwrite gap xs pos ys = xs.take pos ++ ys := by
  unfold overwrite
  split
  · rename_i hys
    rw [List.isEmpty_iff.mp hys, List.length_nil, Nat.add_zero] at h
    rw [List.isEmpty_iff.mp hys, List.append_nil, ← h, List.take_length]
  · rw [← h, List.drop_length, List.append_nil, Nat.sub_eq_zero_of_le (by omega),
      List.replicate_zero, List.append_nil]

/-- The range that was written reads back. -/
theorem slice_overwrite_self (gap : α) (xs ys : List α) (pos : Nat) :
    slice (overwrite gap xs pos ys) pos ys.length = ys := by
  by_cases hys : ys = []
  · rw [hys, List.length_nil, slice_zero]
  · apply List.ext_getElem?
    intro i
    rw [getElem?_slice, getElem?_overwrite gap xs pos hys]
    split
    · rw [if_neg (by omega), if_pos (by omega), Nat.add_sub_cancel_left]
    · rw [List.getElem?_eq_none (by omega)]

/-- A range inside the sequence that the write does not meet is unchanged. -/
theorem slice_overwrite_of_disjoint (gap : α) (xs ys : List α) {pos a n : Nat}
    (hin : n ≤ xs.length - a) (hdisjoint : a + n ≤ pos ∨ pos + ys.length ≤ a) :
    slice (overwrite gap xs pos ys) a n = slice xs a n := by
  by_cases hys : ys = []
  · rw [hys, overwrite_nil]
  · apply List.ext_getElem?
    intro i
    rw [getElem?_slice, getElem?_slice, getElem?_overwrite gap xs pos hys]
    split
    · rcases hdisjoint with h | h
      · rw [if_pos (by omega), if_pos (by omega)]
      · rw [if_neg (by omega), if_neg (by omega)]
    · rfl

/-- Before a write there is what was there, or the gap. -/
theorem getElem?_overwrite_before (gap : α) (xs : List α) {pos i : Nat} {ys : List α}
    (hys : ys ≠ []) (h : i < pos) : (overwrite gap xs pos ys)[i]? = (xs[i]?).or (some gap) := by
  rw [getElem?_overwrite gap xs pos hys, if_pos h]
  split
  · rename_i hin
    rw [List.getElem?_eq_getElem hin, Option.some_or]
  · rename_i hout
    rw [List.getElem?_eq_none (Nat.le_of_not_lt hout), Option.none_or]

/-- Behind a write there is what was there. -/
theorem getElem?_overwrite_after (gap : α) (xs : List α) {pos i : Nat} {ys : List α}
    (hys : ys ≠ []) (h : pos + ys.length ≤ i) : (overwrite gap xs pos ys)[i]? = xs[i]? := by
  rw [getElem?_overwrite gap xs pos hys, if_neg (by omega), if_neg (by omega)]

/-- Inside a write there is what was written. -/
theorem getElem?_overwrite_inside (gap : α) (xs : List α) {pos i : Nat} {ys : List α}
    (hge : pos ≤ i) (hlt : i < pos + ys.length) :
    (overwrite gap xs pos ys)[i]? = some ys[i - pos] := by
  have hys : ys ≠ [] := by
    rintro rfl
    simp only [List.length_nil] at hlt
    omega
  rw [getElem?_overwrite gap xs pos hys, if_neg (by omega), if_pos hlt,
    List.getElem?_eq_getElem (by omega)]

/-- A sequence that goes on with the gap for ever holds, after a write, what was written
where it was written, and elsewhere what it held. -/
theorem getD_overwrite (gap : α) (xs ys : List α) (pos i : Nat) :
    (overwrite gap xs pos ys).getD i gap =
      if pos ≤ i ∧ i < pos + ys.length then ys.getD (i - pos) gap else xs.getD i gap := by
  by_cases hys : ys = []
  · subst hys
    rw [overwrite_nil, if_neg (by simp)]
  rw [List.getD_eq_getElem?_getD]
  split
  · rename_i hin
    rw [getElem?_overwrite_inside gap xs hin.1 hin.2, List.getD_eq_getElem?_getD,
      List.getElem?_eq_getElem (by omega)]
  · rename_i hout
    rcases Nat.lt_or_ge i pos with hlt | hge
    · rw [getElem?_overwrite_before gap xs hys hlt, List.getD_eq_getElem?_getD]
      cases xs[i]? <;> rfl
    · rw [getElem?_overwrite_after gap xs hys (by omega), List.getD_eq_getElem?_getD]

theorem overwrite_comm_of_le (gap : α) (xs ys zs : List α) {p q : Nat} (h : p + ys.length ≤ q) :
    overwrite gap (overwrite gap xs p ys) q zs = overwrite gap (overwrite gap xs q zs) p ys := by
  by_cases hys : ys = []
  · rw [hys, overwrite_nil, overwrite_nil]
  by_cases hzs : zs = []
  · rw [hzs, overwrite_nil, overwrite_nil]
  apply List.ext_getElem?
  intro i
  by_cases hp : i < p
  · rw [getElem?_overwrite_before gap _ hzs (by omega), getElem?_overwrite_before gap _ hys hp,
      getElem?_overwrite_before gap _ hys hp, getElem?_overwrite_before gap _ hzs (by omega)]
  by_cases hpy : i < p + ys.length
  · rw [getElem?_overwrite_before gap _ hzs (by omega),
      getElem?_overwrite_inside gap _ (by omega) hpy, Option.some_or,
      getElem?_overwrite_inside gap _ (by omega) hpy]
  rw [getElem?_overwrite_after gap _ hys (by omega)]
  by_cases hq : i < q
  · rw [getElem?_overwrite_before gap _ hzs hq, getElem?_overwrite_before gap _ hzs hq,
      getElem?_overwrite_after gap _ hys (by omega)]
  by_cases hqz : i < q + zs.length
  · rw [getElem?_overwrite_inside gap _ (by omega) hqz,
      getElem?_overwrite_inside gap _ (by omega) hqz]
  · rw [getElem?_overwrite_after gap _ hzs (by omega),
      getElem?_overwrite_after gap _ hys (by omega),
      getElem?_overwrite_after gap _ hzs (by omega)]

/-- Writes to ranges that do not meet commute, also past the end. -/
theorem overwrite_comm (gap : α) (xs ys zs : List α) {p q : Nat}
    (h : p + ys.length ≤ q ∨ q + zs.length ≤ p) :
    overwrite gap (overwrite gap xs p ys) q zs = overwrite gap (overwrite gap xs q zs) p ys := by
  rcases h with h | h
  · exact overwrite_comm_of_le gap xs ys zs h
  · exact (overwrite_comm_of_le gap xs zs ys h).symm

/-- Behind a write the sequence goes on as it did. -/
theorem drop_overwrite_of_le (gap : α) (xs ys : List α) {pos n : Nat} (h : pos + ys.length ≤ n) :
    (overwrite gap xs pos ys).drop n = xs.drop n := by
  by_cases hys : ys = []
  · rw [hys, overwrite_nil]
  · refine List.ext_getElem? fun i => ?_
    rw [List.getElem?_drop, List.getElem?_drop, getElem?_overwrite_after gap xs hys (by omega)]

/-- A sequence that holds, chunk by chunk, what another one does begins with it. -/
theorem take_eq_of_slices {xs ys : List α} {size : Nat} (hsize : 0 < size)
    (h : ∀ p, p * size < ys.length →
      slice xs (p * size) (slice ys (p * size) size).length = slice ys (p * size) size) :
    xs.take ys.length = ys := by
  refine List.ext_getElem? fun i => ?_
  rw [List.getElem?_take]
  split
  · rename_i hi
    have hsplit := Nat.div_add_mod i size
    have hrest := Nat.mod_lt i hsize
    rw [Nat.mul_comm] at hsplit
    have hchunk := congrArg (fun chunk => chunk[i % size]?) (h (i / size) (by omega))
    rw [getElem?_slice, getElem?_slice, length_slice, if_pos (by omega), if_pos hrest,
      hsplit] at hchunk
    exact hchunk
  · rename_i hi
    exact (List.getElem?_eq_none (Nat.le_of_not_lt hi)).symm

end BitTorrentClient.Library
