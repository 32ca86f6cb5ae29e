/-
  Library/Decimal.lean --- decimal numerals as ASCII octets.

  `decimal n` prints a natural number without leading zeros and `decimalValue`
  reads a run of digits, leading zeros allowed.  Reading what was printed gives
  the number back, and a run that does not start with a zero is what printing its
  value gives: the printed numerals are exactly the canonical ones.
-/
import Mathlib.Data.List.Induction
import Mathlib.Tactic.IntervalCases

set_option autoImplicit false

namespace BitTorrentClient.Library

/-- An ASCII digit. -/
def isDigit (b : UInt8) : Bool := decide (48 ≤ b.toNat ∧ b.toNat ≤ 57)

/-- The number a digit stands for. -/
def digitValue (b : UInt8) : Nat := b.toNat - 48

/-- The digit that stands for a number below ten. -/
def digit (n : Nat) : UInt8 := (48 + n).toUInt8

/-- The number a run of digits stands for. -/
def decimalValue (ds : List UInt8) : Nat := ds.foldl (fun n d => 10 * n + digitValue d) 0

/-- The numeral of a number. -/
def decimal (n : Nat) : List UInt8 := (Nat.toDigits 10 n).map fun c => c.toNat.toUInt8

theorem isDigit_iff {b : UInt8} : isDigit b = true ↔ 48 ≤ b.toNat ∧ b.toNat ≤ 57 := by
  simp [isDigit]

theorem digit_toNat {n : Nat} (h : n < 10) : (digit n).toNat = 48 + n := by
  simp [digit]
  omega

theorem isDigit_digit {n : Nat} (h : n < 10) : isDigit (digit n) = true := by
  rw [isDigit_iff, digit_toNat h]
  omega

theorem digitValue_digit {n : Nat} (h : n < 10) : digitValue (digit n) = n := by
  rw [digitValue, digit_toNat h]
  omega

theorem digit_digitValue {b : UInt8} (h : isDigit b = true) : digit (digitValue b) = b := by
  have hrange := isDigit_iff.mp h
  have hlt : digitValue b < 10 := by
    unfold digitValue
    omega
  apply UInt8.toNat_inj.mp
  rw [digit_toNat hlt, digitValue]
  omega

theorem digitValue_lt {b : UInt8} (h : isDigit b = true) : digitValue b < 10 := by
  have hrange := isDigit_iff.mp h
  unfold digitValue
  omega

/-! ## Printing, digit by digit -/

theorem digitChar_toUInt8 {n : Nat} (h : n < 10) : n.digitChar.toNat.toUInt8 = digit n := by
  interval_cases n <;> rfl

theorem decimal_of_lt {n : Nat} (h : n < 10) : decimal n = [digit n] := by
  rw [decimal, Nat.toDigits_of_lt_base h]
  simp only [List.map_cons, List.map_nil, digitChar_toUInt8 h]

/-- The last digit is printed last. -/
theorem decimal_of_le {n : Nat} (h : 10 ≤ n) :
    decimal n = decimal (n / 10) ++ [digit (n % 10)] := by
  have hmod : n % 10 < 10 := Nat.mod_lt _ (by omega)
  rw [decimal, Nat.toDigits_of_base_le (by omega) h, List.map_append]
  simp only [List.map_cons, List.map_nil, digitChar_toUInt8 hmod, decimal]

theorem decimal_ne_nil (n : Nat) : decimal n ≠ [] := by
  simp [decimal, Nat.toDigits_ne_nil]

theorem isDigit_of_mem_decimal {n : Nat} {b : UInt8} (h : b ∈ decimal n) :
    isDigit b = true := by
  induction n using Nat.strongRecOn with
  | ind n ih =>
    rcases Nat.lt_or_ge n 10 with hlt | hge
    · rw [decimal_of_lt hlt, List.mem_singleton] at h
      rw [h]
      exact isDigit_digit hlt
    · rw [decimal_of_le hge, List.mem_append, List.mem_singleton] at h
      rcases h with h | rfl
      · exact ih (n / 10) (by omega) h
      · exact isDigit_digit (Nat.mod_lt _ (by omega))

/-- Only the numeral of zero starts with a zero. -/
theorem head_decimal {n : Nat} (hn : n ≠ 0) : (decimal n).head? ≠ some (digit 0) := by
  induction n using Nat.strongRecOn with
  | ind n ih =>
    rcases Nat.lt_or_ge n 10 with hlt | hge
    · rw [decimal_of_lt hlt]
      intro h
      have heq : digitValue (digit n) = digitValue (digit 0) := by
        rw [Option.some.inj h]
      rw [digitValue_digit hlt, digitValue_digit (by omega)] at heq
      exact hn heq
    · have hrest := ih (n / 10) (by omega) (by omega)
      obtain ⟨b, bs, hcons⟩ := List.exists_cons_of_ne_nil (decimal_ne_nil (n / 10))
      rw [decimal_of_le hge, hcons]
      rw [hcons] at hrest
      exact hrest

/-! ## Reading -/

theorem decimalValue_append (ds : List UInt8) (d : UInt8) :
    decimalValue (ds ++ [d]) = 10 * decimalValue ds + digitValue d := by
  simp [decimalValue]

/-- Reading undoes printing. -/
theorem decimalValue_decimal (n : Nat) : decimalValue (decimal n) = n := by
  induction n using Nat.strongRecOn with
  | ind n ih =>
    rcases Nat.lt_or_ge n 10 with hlt | hge
    · rw [decimal_of_lt hlt, ← List.nil_append [digit n], decimalValue_append,
        digitValue_digit hlt]
      simp [decimalValue]
    · rw [decimal_of_le hge, decimalValue_append, ih (n / 10) (by omega),
        digitValue_digit (Nat.mod_lt _ (by omega))]
      omega

/-- The first digit stays first. -/
theorem head?_snoc {ds : List UInt8} (hds : ds ≠ []) (d : UInt8) :
    (ds ++ [d]).head? = ds.head? := by
  obtain ⟨c, cs, rfl⟩ := List.exists_cons_of_ne_nil hds
  rfl

theorem pos_of_head {ds : List UInt8} (hdigits : ∀ d ∈ ds, isDigit d = true) (hne : ds ≠ [])
    (hhead : ds.head? ≠ some (digit 0)) : 0 < decimalValue ds := by
  induction ds using List.reverseRecOn with
  | nil => exact absurd rfl hne
  | append_singleton ds d ih =>
    rw [decimalValue_append]
    rcases List.eq_nil_or_concat ds with rfl | ⟨_, _, hcons⟩
    · have hd := hdigits d (by simp)
      have hzero : digitValue d ≠ 0 := by
        intro h
        apply hhead
        rw [← h, digit_digitValue hd]
        rfl
      omega
    · have hds : ds ≠ [] := by simp [hcons]
      have hpos := ih (fun c hc => hdigits c (by simp [hc])) hds
        fun h => hhead ((head?_snoc hds d).trans h)
      omega

/-- Printing undoes reading, on runs without a leading zero. -/
theorem decimal_decimalValue {ds : List UInt8} (hdigits : ∀ d ∈ ds, isDigit d = true)
    (hne : ds ≠ []) (hhead : ds.head? = some (digit 0) → ds.length = 1) :
    decimal (decimalValue ds) = ds := by
  induction ds using List.reverseRecOn with
  | nil => exact absurd rfl hne
  | append_singleton ds d ih =>
    have hd := hdigits d (by simp)
    have hlt := digitValue_lt hd
    rw [decimalValue_append]
    by_cases hds : ds = []
    · subst hds
      have hvalue : 10 * decimalValue [] + digitValue d = digitValue d := by
        simp [decimalValue]
      rw [hvalue, decimal_of_lt hlt, digit_digitValue hd, List.nil_append]
    · have hhead' : ds.head? ≠ some (digit 0) := by
        intro h
        have hshort := hhead ((head?_snoc hds d).trans h)
        rw [List.length_append, List.length_singleton] at hshort
        exact hds (List.length_eq_zero_iff.mp (by omega))
      have hds' : ∀ c ∈ ds, isDigit c = true := fun c hc => hdigits c (by simp [hc])
      have hpos := pos_of_head hds' hds hhead'
      have hsofar := ih hds' hds fun h => absurd h hhead'
      rw [decimal_of_le (by omega)]
      have hdiv : (10 * decimalValue ds + digitValue d) / 10 = decimalValue ds := by omega
      have hmod : (10 * decimalValue ds + digitValue d) % 10 = digitValue d := by omega
      rw [hdiv, hmod, hsofar, digit_digitValue hd]

end BitTorrentClient.Library
