/-
  Core/Bencode/RoundTrip.lean --- decoding undoes encoding.

  The encoding of a value is a word of the grammar, of the depth of the value, so
  the results on words apply: the value is read back from wherever the encoding
  stands, unless it nests too deep.
-/
import BitTorrentClient.Core.Bencode.Grammar

set_option autoImplicit false

namespace BitTorrentClient.Bencode

open Library Detail

mutual

/-- The encoding of a value is a word for it. -/
theorem encode_derives : (v : Value) → v.WF → Derives v.height (encode v) (.value v)
  | .int n, _ => .int n
  | .str bytes, _ => .str (numeral_decimal bytes.length)
  | .list values, h => .list (encodeItems_derives values h)
  | .dict values, h => by
    have hpairs := Derives.dict (encodePairs_derives values h.2)
    rwa [dictOf_of_keyed h.1] at hpairs

theorem encodeItems_derives : (values : List Value) → WFItems values →
    Derives (heightItems values) (encodeItems values) (.items values)
  | [], _ => .noItems
  | v :: rest, h => .item (encode_derives v h.1) (encodeItems_derives rest h.2)

theorem encodePairs_derives : (values : Pairs) → WFPairs values →
    Derives (heightPairs values) (encodePairs values) (.pairs values)
  | [], _ => .noPairs
  | (key, v) :: rest, h =>
    .pair (numeral_decimal key.length) (encode_derives v h.1) (encodePairs_derives rest h.2)

end

/-- A value is read back wherever its encoding stands. -/
theorem reads_encode {data rest : Bytes} (hsize : data.length < 2 ^ 64) {p d : Nat} {v : Value}
    (hwf : v.WF) (hdrop : data.drop p = encode v ++ rest)
    (hdepth : d + v.height ≤ maxRecursionDepth) :
    ∃ strings, Reads data p d (.value v) (p + (encode v).length) strings := by
  obtain ⟨strings, hreads, _⟩ :=
    Derives.reads hsize (encode_derives v hwf) hdrop trivial hdepth
  exact ⟨strings, hreads⟩

/-- `detail::parse` at the start of an encoding returns the value and the position
behind it. -/
theorem parse_encode_append {v : Value} {rest : Bytes} (hwf : v.WF)
    (hsize : (encode v ++ rest).length < 2 ^ 64) (hdepth : v.height ≤ maxRecursionDepth) :
    ∃ fuel, Detail.parse (encode v ++ rest) fuel 0 0 = .ok (v, (encode v).length) := by
  obtain ⟨strings, hreads⟩ := reads_encode hsize hwf (p := 0) rfl (d := 0) (by omega)
  rw [Nat.zero_add] at hreads
  exact ((Detail.parse_rising _ 0 0).eventually_eq_iff (by simp)).mp hreads.comes

/-- **Decode undoes encode.**  A value that nests no deeper than the limit is what
parsing its encoding returns, also in front of other data; for any other value
the limit is reported. -/
theorem parse_encode (v : Value) (hwf : v.WF) (hsize : (encode v).length < 2 ^ 63) :
    (v.height ≤ maxRecursionDepth →
      Returns (encode v) v ∧
      ∀ rest, (encode v ++ rest).length < 2 ^ 64 →
        ∃ fuel, Detail.parse (encode v ++ rest) fuel 0 0 = .ok (v, (encode v).length)) ∧
    (maxRecursionDepth < v.height → Throws (encode v) depthLimitExceeded) := by
  have hsize64 : (encode v).length < 2 ^ 64 := by omega
  have hwhole : (encode v).drop 0 = encode v ++ [] := (List.append_nil _).symm
  refine ⟨fun hdepth => ⟨?_, fun rest hrest => parse_encode_append hwf hrest hdepth⟩, ?_⟩
  · obtain ⟨strings, hreads⟩ := reads_encode hsize64 hwf hwhole (d := 0) (by omega)
    have hvalue : Detail.outcome (encode v) 0 0 = .ok (v, 0 + (encode v).length) := hreads.comes
    rw [returns_iff, outcome_eq, hvalue]
    rfl
  · intro hdepth
    have hdeep : Detail.outcome (encode v) 0 0 = throwing depthLimitExceeded :=
      Derives.too_deep hsize64 (encode_derives v hwf) hwhole (d := 0) trivial (by omega)
    rw [throws_iff, outcome_eq, hdeep]
    rfl

/-- A dictionary with the least integer and a string that looks like one. -/
def sampleValue : Value :=
  .dict [(ascii "a", .list [.int (-9223372036854775808), .str (ascii "i1e:")])]

/-- The sample comes back, and so it does in front of a colon. -/
theorem parse_encode_sample :
    Returns (encode sampleValue) sampleValue ∧
      ∃ fuel, Detail.parse (encode sampleValue ++ [colonMark]) fuel 0 0 =
        .ok (sampleValue, 35) := by
  have hwf : sampleValue.WF := by
    simp [sampleValue, Value.WF, WFItems, WFPairs, Keyed]
  have h := (parse_encode sampleValue hwf (by decide)).1 (by decide)
  exact ⟨h.1, h.2 [colonMark] (by decide)⟩

end BitTorrentClient.Bencode
