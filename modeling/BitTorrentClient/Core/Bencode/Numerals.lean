/-
  Core/Bencode/Numerals.lean --- the numerals of the format.

  `stoul` and `stoll` accept more than the format has: blanks, signs, leading zeros
  and anything behind the digits.  On a run of digits `stoul` is the value of the
  run, and behind `isValidBencodeInt` only the printed numerals are left, one for
  each integer.
-/
import BitTorrentClient.Core.Bencode.Parser
import Mathlib.Data.List.TakeWhile

set_option autoImplicit false

namespace BitTorrentClient.Bencode

open Library

/-! ## Finding a character -/

theorem find_of_drop {data front rest : Bytes} {c : UInt8} {p : Nat}
    (h : data.drop p = front ++ c :: rest) (hfront : c ∉ front) :
    find data c p = some (p + front.length) := by
  have hlt : front.length < (front ++ c :: rest).length := by simp
  have hfound : (front ++ c :: rest).findIdx? (fun b => b == c) = some front.length := by
    refine List.findIdx?_eq_some_iff_getElem.mpr ⟨hlt, by simp, fun j hj => ?_⟩
    rw [List.getElem_append_left hj]
    intro heq
    exact hfront (eq_of_beq heq ▸ List.getElem_mem hj)
  rw [find, h, hfound]
  rfl

theorem find_eq_some {data : Bytes} {c : UInt8} {p i : Nat} (h : find data c p = some i) :
    p ≤ i ∧ data[i]? = some c ∧ ∀ j, p ≤ j → j < i → data[j]? ≠ some c := by
  unfold find at h
  obtain ⟨k, hk, rfl⟩ := Option.map_eq_some_iff.mp h
  obtain ⟨hlt, hc, hbefore⟩ := List.findIdx?_eq_some_iff_getElem.mp hk
  refine ⟨Nat.le_add_right p k, ?_, ?_⟩
  · rw [← List.getElem?_drop, List.getElem?_eq_getElem hlt, eq_of_beq hc]
  · intro j hj hlt' heq
    have hjk : j - p < k := by omega
    have hget : (data.drop p)[j - p]? = some c := by
      rw [List.getElem?_drop, Nat.add_sub_cancel' hj, heq]
    rw [List.getElem?_eq_getElem (by omega)] at hget
    have hne := hbefore (j - p) hjk
    rw [Option.some.inj hget] at hne
    simp at hne

theorem find_lt {data : Bytes} {c : UInt8} {p i : Nat} (h : find data c p = some i) :
    i < data.length :=
  (List.getElem?_eq_some_iff.mp (find_eq_some h).2.1).1

/-- The range that `drop` shows. -/
theorem slice_of_drop {data front rest : Bytes} {p : Nat} (h : data.drop p = front ++ rest) :
    slice data p front.length = front := by
  rw [slice, h, List.take_left']
  rfl

theorem drop_add_of_drop {data front rest : Bytes} {p : Nat} (h : data.drop p = front ++ rest) :
    data.drop (p + front.length) = rest := by
  rw [← List.drop_drop, h, List.drop_left']
  rfl

theorem getElem?_of_drop {data rest : Bytes} {p : Nat} {c : UInt8}
    (h : data.drop p = c :: rest) : data[p]? = some c := by
  have hget : (data.drop p)[0]? = some c := by rw [h]; rfl
  rwa [List.getElem?_drop] at hget

theorem drop_of_getElem? {data : Bytes} {p : Nat} {c : UInt8} (h : data[p]? = some c) :
    data.drop p = c :: data.drop (p + 1) := by
  obtain ⟨hlt, rfl⟩ := List.getElem?_eq_some_iff.mp h
  exact List.drop_eq_getElem_cons hlt

/-! ## Runs of digits -/

/-- A non-empty run of digits, and its value. -/
structure Numeral (digits : Bytes) (n : Nat) : Prop where
  nonempty : digits ≠ []
  allDigits : ∀ d ∈ digits, isDigit d = true
  value : decimalValue digits = n

theorem numeral_decimal (n : Nat) : Numeral (decimal n) n where
  nonempty := decimal_ne_nil n
  allDigits := fun _ => isDigit_of_mem_decimal
  value := decimalValue_decimal n

/-- A character that is no digit is in no numeral. -/
theorem Numeral.not_mem {digits : Bytes} {n : Nat} (h : Numeral digits n) {c : UInt8}
    (hc : isDigit c = false) : c ∉ digits := by
  intro hmem
  rw [h.allDigits c hmem] at hc
  simp at hc

theorem takeWhile_digits {digits : Bytes} (h : ∀ d ∈ digits, isDigit d = true) :
    digits.takeWhile isDigit = digits :=
  List.takeWhile_eq_self_iff.mpr h

theorem not_isSpace_of_isDigit {c : UInt8} (h : isDigit c = true) : isSpace c = false := by
  have hrange := isDigit_iff.mp h
  have hblank : c ≠ 32 := by
    rintro rfl
    exact absurd hrange (by decide)
  simp only [isSpace, Bool.or_eq_false_iff, beq_eq_false_iff_ne, decide_eq_false_iff_not]
  exact ⟨hblank, by omega⟩

/-- A run of digits is its own numeral. -/
theorem splitNumeral_digits {digits : Bytes} {n : Nat} (h : Numeral digits n) :
    splitNumeral digits = (false, digits) := by
  obtain ⟨c, rest, rfl⟩ := List.exists_cons_of_ne_nil h.nonempty
  have hc : isDigit c = true := h.allDigits c List.mem_cons_self
  have hminus : c ≠ minusSign := by
    rintro rfl
    exact absurd hc (by decide)
  have hplus : c ≠ plusSign := by
    rintro rfl
    exact absurd hc (by decide)
  rw [splitNumeral, List.dropWhile_cons, not_isSpace_of_isDigit hc, if_neg Bool.false_ne_true]
  simp only [if_neg hminus, if_neg hplus, takeWhile_digits h.allDigits]

theorem splitNumeral_minus {digits : Bytes} {n : Nat} (h : Numeral digits n) :
    splitNumeral (minusSign :: digits) = (true, digits) := by
  rw [splitNumeral, List.dropWhile_cons, if_neg (by decide)]
  simp only [if_true, takeWhile_digits h.allDigits]

theorem stoul_numeral {digits : Bytes} {n : Nat} (h : Numeral digits n) (hn : n < 2 ^ 64) :
    stoul digits = .ok n := by
  have hne : digits.isEmpty = false := by simpa using h.nonempty
  rw [stoul, splitNumeral_digits h]
  simp only [hne, Bool.false_eq_true, if_false, h.value, if_neg (Nat.not_le.mpr hn)]

theorem stoul_lt {s : Bytes} {n : Nat} (h : stoul s = .ok n) : n < 2 ^ 64 := by
  unfold stoul at h
  split at h
  rename_i negative digits _
  split at h
  · simp at h
  · split at h
    · simp at h
    · rename_i hlt
      rw [← Except.ok.inj h]
      split
      · exact Nat.mod_lt _ (by decide)
      · exact Nat.lt_of_not_le hlt

/-! ## Integers -/

theorem signedDecimal_of_nonneg {n : Int} (h : 0 ≤ n) : signedDecimal n = decimal n.natAbs :=
  if_neg (Int.not_lt.mpr h)

theorem signedDecimal_of_neg {n : Int} (h : n < 0) :
    signedDecimal n = minusSign :: decimal n.natAbs := if_pos h

/-- No integer is printed with the end mark in it. -/
theorem endMark_not_mem_signedDecimal (n : Int) : endMark ∉ signedDecimal n := by
  have hdigits : endMark ∉ decimal n.natAbs := (numeral_decimal n.natAbs).not_mem (by decide)
  rcases Int.lt_or_le n 0 with hneg | hnonneg
  · rw [signedDecimal_of_neg hneg]
    simp only [List.mem_cons, not_or]
    exact ⟨by decide, hdigits⟩
  · rw [signedDecimal_of_nonneg hnonneg]
    exact hdigits

/-- What `stoll` makes of an integer that it read. -/
def rangeChecked (n : Int) : Except StdException Int64 :=
  if n < - 2 ^ 63 ∨ 2 ^ 63 ≤ n then .error (.outOfRange "stoll") else .ok (Int64.ofInt n)

theorem rangeChecked_of_fits {n : Int} (hlow : - 2 ^ 63 ≤ n) (hhigh : n < 2 ^ 63) :
    rangeChecked n = .ok (Int64.ofInt n) :=
  if_neg (by omega)

theorem rangeChecked_toInt (n : Int64) : rangeChecked n.toInt = .ok n := by
  rw [rangeChecked_of_fits (Int64.le_toInt n) (Int64.toInt_lt n), Int64.ofInt_toInt]

theorem rangeChecked_eq_ok {n : Int} {m : Int64} (h : rangeChecked n = .ok m) : m.toInt = n := by
  unfold rangeChecked at h
  split at h
  · cases h
  · rw [← Except.ok.inj h]
    exact Int64.toInt_ofInt_of_le (by omega) (by omega)

theorem stoll_numeral {digits : Bytes} {n : Nat} (h : Numeral digits n) :
    stoll digits = rangeChecked n := by
  have hne : digits.isEmpty = false := by simpa using h.nonempty
  rw [stoll, splitNumeral_digits h]
  simp only [hne, Bool.false_eq_true, if_false, h.value, rangeChecked]

theorem stoll_minus {digits : Bytes} {n : Nat} (h : Numeral digits n) :
    stoll (minusSign :: digits) = rangeChecked (- n) := by
  have hne : digits.isEmpty = false := by simpa using h.nonempty
  rw [stoll, splitNumeral_minus h]
  simp only [hne, if_true, Bool.false_eq_true, if_false, h.value, rangeChecked]

/-- Reading a printed integer gives it back, if it has 64 bits. -/
theorem stoll_signedDecimal (n : Int) : stoll (signedDecimal n) = rangeChecked n := by
  have habs := numeral_decimal n.natAbs
  rcases Int.lt_or_le n 0 with hneg | hnonneg
  · have heq : - (n.natAbs : Int) = n := by omega
    rw [signedDecimal_of_neg hneg, stoll_minus habs, heq]
  · have heq : (n.natAbs : Int) = n := by omega
    rw [signedDecimal_of_nonneg hnonneg, stoll_numeral habs, heq]

namespace Detail

/-- Without a minus sign: a digit run with no leading zero, or a single zero. -/
theorem isValidBencodeInt_of_not_minus {s : Bytes} (hsign : s[0]? ≠ some minusSign) :
    isValidBencodeInt s = true ↔ s ≠ [] ∧ (∀ d ∈ s, isDigit d = true) ∧
      (s.head? = some (digit 0) → s.length = 1) := by
  rw [List.head?_eq_getElem?]
  simp only [isValidBencodeInt, hsign, false_and, if_false, List.drop_zero]
  split
  · rename_i hempty
    simp [List.isEmpty_iff.mp hempty]
  · rename_i hempty
    have hne : s ≠ [] := by simpa using hempty
    have hlong : s.length ≠ 0 := fun h => hne (List.length_eq_zero_iff.mp h)
    split
    · rename_i hzero
      simp only [Bool.false_eq_true, false_iff, not_and]
      exact fun _ _ h => absurd (h hzero.1) (by omega)
    · rename_i hzero
      rw [List.all_eq_true]
      constructor
      · intro hall
        refine ⟨hne, hall, fun h => ?_⟩
        have := not_and.mp hzero h
        omega
      · exact fun h => h.2.1

/-- With one: a digit run that does not start with a zero. -/
theorem isValidBencodeInt_minus {digits : Bytes} :
    isValidBencodeInt (minusSign :: digits) = true ↔
      digits ≠ [] ∧ (∀ d ∈ digits, isDigit d = true) ∧ digits.head? ≠ some (digit 0) := by
  simp only [isValidBencodeInt, List.isEmpty_cons, Bool.false_eq_true, if_false,
    List.getElem?_cons_zero, true_and, if_true, List.getElem?_cons_succ, List.length_cons,
    List.drop_succ_cons, List.drop_zero, List.head?_eq_getElem?]
  split
  · rename_i h
    simp only [Bool.false_eq_true, false_iff, not_and, not_not]
    intro hne _
    rcases h with hlen | hzero
    · exact absurd (List.length_eq_zero_iff.mp (by omega)) hne
    · exact hzero
  · rename_i h
    obtain ⟨hlen, hzero⟩ := not_or.mp h
    rw [if_neg fun hz => hzero hz.1, List.all_eq_true]
    constructor
    · exact fun hall => ⟨fun hnil => hlen (by simp [hnil]), hall, hzero⟩
    · exact fun h => h.2.1

theorem isValidBencodeInt_signedDecimal (n : Int) :
    isValidBencodeInt (signedDecimal n) = true := by
  have habs := numeral_decimal n.natAbs
  rcases Int.lt_or_le n 0 with hneg | hnonneg
  · rw [signedDecimal_of_neg hneg, isValidBencodeInt_minus]
    exact ⟨habs.nonempty, habs.allDigits, head_decimal (by omega)⟩
  · rw [signedDecimal_of_nonneg hnonneg, isValidBencodeInt_of_not_minus]
    · refine ⟨habs.nonempty, habs.allDigits, fun hhead => ?_⟩
      by_cases hzero : n.natAbs = 0
      · rw [hzero, decimal_of_lt (by omega)]
        rfl
      · exact absurd hhead (head_decimal hzero)
    · rw [← List.head?_eq_getElem?]
      intro hhead
      have hmem := List.mem_of_mem_head? hhead
      exact habs.not_mem (by decide) hmem

/-- A valid payload is a printed integer, however large. -/
theorem exists_signedDecimal {s : Bytes} (hvalid : isValidBencodeInt s = true) :
    ∃ n, s = signedDecimal n := by
  by_cases hsign : s[0]? = some minusSign
  · obtain ⟨digits, rfl⟩ : ∃ digits, s = minusSign :: digits := by
      cases s with
      | nil => simp at hsign
      | cons c rest => exact ⟨rest, by rw [Option.some.inj hsign]⟩
    obtain ⟨hne, hdigits, hhead⟩ := isValidBencodeInt_minus.mp hvalid
    have hpos := pos_of_head hdigits hne hhead
    refine ⟨- decimalValue digits, ?_⟩
    rw [signedDecimal_of_neg (by omega), Int.natAbs_neg, Int.natAbs_natCast,
      decimal_decimalValue hdigits hne fun h => absurd h hhead]
  · obtain ⟨hne, hdigits, hhead⟩ := (isValidBencodeInt_of_not_minus hsign).mp hvalid
    refine ⟨decimalValue s, ?_⟩
    rw [signedDecimal_of_nonneg (by omega), Int.natAbs_natCast,
      decimal_decimalValue hdigits hne hhead]

/-- The valid payloads are the printed integers. -/
theorem isValidBencodeInt_iff {s : Bytes} :
    isValidBencodeInt s = true ↔ ∃ n, s = signedDecimal n :=
  ⟨exists_signedDecimal, fun ⟨n, h⟩ => h ▸ isValidBencodeInt_signedDecimal n⟩

/-- A valid payload is the printed form of the integer it stands for. -/
theorem eq_signedDecimal {s : Bytes} {n : Int64} (hvalid : isValidBencodeInt s = true)
    (hn : stoll s = .ok n) : s = signedDecimal n.toInt := by
  obtain ⟨m, rfl⟩ := exists_signedDecimal hvalid
  rw [stoll_signedDecimal] at hn
  rw [rangeChecked_eq_ok hn]

end Detail

end BitTorrentClient.Bencode
