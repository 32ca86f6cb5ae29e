/-
  Core/Bencode/Integers.lean --- which payloads `parseInt` takes.

  The validator looks at single characters, `stoll` at the value.  Together they accept
  the printed integers of 64 bits; a printed integer that is too large gets past the
  validator and is refused by `stoll`, and everything else is refused by the validator.
-/
import BitTorrentClient.Core.Bencode.Numerals

set_option autoImplicit false

namespace BitTorrentClient.Bencode

open Library

namespace Detail

/-- An integer whose payload is `s`, with something behind it. -/
def framedInt (s rest : Bytes) : Bytes := intStart :: (s ++ endMark :: rest)

/-- What `parseInt` finds between the mark of the start and the first mark of the end. -/
theorem parseInt_framedInt {s : Bytes} (hs : endMark ∉ s) (rest : Bytes) :
    parseInt (framedInt s rest) 0 =
      if isValidBencodeInt s then
        match stoll s with
        | .error x => throwing x
        | .ok n => .ok (.int n, s.length + 2)
      else throwing (.invalidArgument "Bad int") := by
  have hbody : (framedInt s rest).drop 1 = s ++ endMark :: rest := rfl
  have hfind : find (framedInt s rest) endMark (0 + 1) = some (1 + s.length) :=
    find_of_drop hbody hs
  have hslice : slice (framedInt s rest) (0 + 1) (1 + s.length - (0 + 1)) = s := by
    rw [Nat.zero_add, Nat.add_sub_cancel_left]
    exact slice_of_drop hbody
  have hstart : charAt (framedInt s rest) 0 = .ok intStart := rfl
  simp only [parseInt, hstart, bind, Except.bind, ne_eq, not_true_eq_false, if_false, hfind, hslice]
  cases isValidBencodeInt s with
  | false => rfl
  | true =>
    cases stoll s with
    | error x => rfl
    | ok n =>
      rw [Nat.add_comm 1]
      rfl

/-- The payload is a printed integer: it is taken when the integer has 64 bits. -/
theorem parseInt_signedDecimal (n : Int) (rest : Bytes) :
    parseInt (framedInt (signedDecimal n) rest) 0 =
      match rangeChecked n with
      | .error x => throwing x
      | .ok m => .ok (.int m, (signedDecimal n).length + 2) := by
  rw [parseInt_framedInt (endMark_not_mem_signedDecimal n), isValidBencodeInt_signedDecimal,
    if_pos rfl, stoll_signedDecimal]

/-- **Integers.**  For every payload without the mark of the end, and whatever follows
it, `parseInt` returns exactly when the payload is the printed form of a signed integer
of 64 bits, with that integer and the position behind the mark.  The printed form of an
integer that is larger throws `out_of_range`, and every other payload
`invalid_argument`. -/
theorem parseInt_grammar {s : Bytes} (hs : endMark ∉ s) (rest : Bytes) :
    (∀ v pos, parseInt (framedInt s rest) 0 = .ok (v, pos) ↔
      ∃ n : Int64, s = signedDecimal n.toInt ∧ v = .int n ∧ pos = s.length + 2) ∧
    (∀ n : Int, s = signedDecimal n → n < - 2 ^ 63 ∨ 2 ^ 63 ≤ n →
      parseInt (framedInt s rest) 0 = throwing (.outOfRange "stoll")) ∧
    ((∀ n : Int, s ≠ signedDecimal n) →
      parseInt (framedInt s rest) 0 = throwing (.invalidArgument "Bad int")) := by
  refine ⟨fun v pos => ⟨fun h => ?_, ?_⟩, ?_, fun hnone => ?_⟩
  · rw [parseInt_framedInt hs] at h
    split at h
    · rename_i hvalid
      split at h
      · cases h
      · rename_i n hn
        cases h
        exact ⟨n, eq_signedDecimal hvalid hn, rfl, rfl⟩
    · cases h
  · rintro ⟨n, rfl, rfl, rfl⟩
    rw [parseInt_signedDecimal, rangeChecked_toInt]
  · rintro n rfl hrange
    rw [parseInt_signedDecimal, rangeChecked, if_pos hrange]
  · have hinvalid : isValidBencodeInt s ≠ true := by
      intro hvalid
      obtain ⟨n, hn⟩ := exists_signedDecimal hvalid
      exact hnone n hn
    rw [parseInt_framedInt hs, if_neg hinvalid]

/-- The smallest integer, with a byte behind it. -/
theorem parseInt_grammar_smallest :
    parseInt (ascii "i-9223372036854775808ex") 0 = .ok (.int Int64.minValue, 22) := by
  have hprinted : ascii "-9223372036854775808" = signedDecimal Int64.minValue.toInt := by
    decide +kernel
  exact ((parseInt_grammar (s := ascii "-9223372036854775808") (by decide) (ascii "x")).1 _ _).mpr
    ⟨Int64.minValue, hprinted, rfl, rfl⟩

end Detail

end BitTorrentClient.Bencode
