/-
  Library/Chunks.lean --- a length cut into chunks.

  All chunks but the last one are full, and the last one is what is left.  `chunkCount`
  is how many there are and `chunkLen` how long each of them is; together they are as
  long as what was cut.
-/
import Mathlib.Algebra.GroupWithZero.Nat
import Mathlib.Data.List.Basic

set_option autoImplicit false

namespace BitTorrentClient.Library

/-- How many chunks of `size` a length is cut into. -/
def chunkCount (size length : Nat) : Nat := (length + size - 1) / size

/-- How long the chunk `i` is. -/
def chunkLen (size length i : Nat) : Nat := min size (length - i * size)

variable {size length i : Nat}

/-- A chunk is one of them when it starts inside. -/
theorem lt_chunkCount_iff (hsize : 0 < size) : i < chunkCount size length ↔ i * size < length := by
  rw [chunkCount, Nat.lt_iff_add_one_le, Nat.le_div_iff_mul_le hsize, Nat.succ_mul]
  omega

/-- The chunks are as many as reach to the end, and no more. -/
theorem eq_chunkCount_iff (hsize : 0 < size) {n : Nat} :
    n = chunkCount size length ↔ length ≤ size * n ∧ size * n < length + size := by
  rw [chunkCount, eq_comm, Nat.div_eq_iff hsize, Nat.mul_comm]
  omega

/-- Something that is not empty has a last chunk. -/
theorem chunkCount_pos (hsize : 0 < size) (hlength : 0 < length) :
    0 < chunkCount size length := by
  rw [lt_chunkCount_iff hsize]
  omega

/-- The chunks reach to the end. -/
theorem length_le_chunkCount (hsize : 0 < size) : length ≤ chunkCount size length * size :=
  Nat.le_of_not_lt fun h => Nat.lt_irrefl _ ((lt_chunkCount_iff hsize).mpr h)

/-- A chunk with another one behind it is full. -/
theorem chunkLen_of_lt (hsize : 0 < size) (h : i + 1 < chunkCount size length) :
    chunkLen size length i = size := by
  have hin := (lt_chunkCount_iff hsize).mp h
  rw [Nat.succ_mul] at hin
  rw [chunkLen]
  omega

/-- The last chunk is the remainder, or full when there is none. -/
theorem chunkLen_last (hsize : 0 < size) (h : i + 1 = chunkCount size length) :
    chunkLen size length i = if length % size ≠ 0 then length % size else size := by
  have hstart : i * size < length := (lt_chunkCount_iff hsize).mp (by omega)
  have hend : length ≤ chunkCount size length * size := length_le_chunkCount hsize
  rw [← h, Nat.succ_mul] at hend
  have hrest : (length - i * size) % size = length % size := by
    rw [Nat.mul_comm, Nat.sub_mul_mod]
    rw [Nat.mul_comm]
    exact Nat.le_of_lt hstart
  rw [chunkLen]
  split
  · rename_i hremainder
    have hlt : length - i * size < size := by
      refine Nat.lt_of_le_of_ne (by omega) fun hfull => hremainder ?_
      rw [← hrest, hfull, Nat.mod_self]
    rw [← hrest, Nat.mod_eq_of_lt hlt]
    omega
  · rename_i hnone
    have hnone : length % size = 0 := not_not.mp hnone
    have hfull : ¬ length - i * size < size := by
      intro hlt
      rw [Nat.mod_eq_of_lt hlt] at hrest
      omega
    omega

/-- The first chunks are as long as the part of the whole that they reach over. -/
theorem sum_chunkLen_range (size length n : Nat) :
    ((List.range n).map (chunkLen size length)).sum = min (n * size) length := by
  induction n with
  | zero => simp
  | succ n ih =>
    rw [List.range_succ, List.map_append, List.sum_append, ih, Nat.succ_mul]
    simp only [List.map_cons, List.map_nil, List.sum_cons, List.sum_nil, chunkLen]
    omega

/-- The chunks together are as long as the whole. -/
theorem sum_chunkLen (hsize : 0 < size) :
    ((List.range (chunkCount size length)).map (chunkLen size length)).sum = length := by
  rw [sum_chunkLen_range]
  exact Nat.min_eq_right (length_le_chunkCount hsize)

end BitTorrentClient.Library
