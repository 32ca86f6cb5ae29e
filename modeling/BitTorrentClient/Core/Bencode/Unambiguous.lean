/-
  Core/Bencode/Unambiguous.lean --- words of the grammar in front of other octets.

  A word of the grammar says itself where it ends: two words that are followed by
  anything at all and look the same are the same word and denote the same.  So nobody
  has to know the length of a value to read it, and different values have different
  encodings, none of them the beginning of another.
-/
import BitTorrentClient.Core.Bencode.Soundness
import BitTorrentClient.Core.Bencode.RoundTrip
import Mathlib.Algebra.Order.BigOperators.Group.List

set_option autoImplicit false

namespace BitTorrentClient

namespace Library

/-- What stands before the first mark. -/
theorem append_mark_inj {α : Type} {mark : α} {xs ys as bs : List α} (hxs : mark ∉ xs)
    (hys : mark ∉ ys) (h : xs ++ mark :: as = ys ++ mark :: bs) : xs = ys ∧ as = bs := by
  induction xs generalizing ys with
  | nil =>
    cases ys with
    | nil => exact ⟨rfl, (List.cons.inj h).2⟩
    | cons y ys =>
      obtain ⟨rfl, _⟩ := List.cons.inj h
      exact absurd List.mem_cons_self hys
  | cons x xs ih =>
    cases ys with
    | nil =>
      obtain ⟨rfl, _⟩ := List.cons.inj h
      exact absurd List.mem_cons_self hxs
    | cons y ys =>
      obtain ⟨rfl, hrest⟩ := List.cons.inj h
      obtain ⟨rfl, hsame⟩ := ih (fun hmem => hxs (List.mem_cons_of_mem _ hmem))
        (fun hmem => hys (List.mem_cons_of_mem _ hmem)) hrest
      exact ⟨rfl, hsame⟩

end Library

namespace Bencode

open Library Detail

/-! ## Leaves -/

theorem signedDecimal_injective {n n' : Int64}
    (h : signedDecimal n.toInt = signedDecimal n'.toInt) : n = n' := by
  have hvalue := stoll_signedDecimal n.toInt
  rw [h, stoll_signedDecimal, rangeChecked_toInt, rangeChecked_toInt] at hvalue
  exact (Except.ok.inj hvalue).symm

/-- A printed integer ends at its mark. -/
theorem intWord_unique {n n' : Int64} {a b : Bytes}
    (h : intStart :: signedDecimal n.toInt ++ [endMark] ++ a =
      intStart :: signedDecimal n'.toInt ++ [endMark] ++ b) : n = n' ∧ a = b := by
  simp only [List.cons_append, List.append_assoc, List.nil_append, List.cons.injEq,
    true_and] at h
  obtain ⟨hsame, rfl⟩ := append_mark_inj (endMark_not_mem_signedDecimal _)
    (endMark_not_mem_signedDecimal _) h
  exact ⟨signedDecimal_injective hsame, rfl⟩

/-- A string ends where its length prefix says. -/
theorem stringWord_unique {digits digits' bytes bytes' a b : Bytes}
    (hnum : Numeral digits bytes.length) (hnum' : Numeral digits' bytes'.length)
    (h : digits ++ colonMark :: bytes ++ a = digits' ++ colonMark :: bytes' ++ b) :
    digits = digits' ∧ bytes = bytes' ∧ a = b := by
  simp only [List.append_assoc, List.cons_append] at h
  obtain ⟨rfl, hrest⟩ := append_mark_inj (hnum.not_mem (by decide)) (hnum'.not_mem (by decide)) h
  obtain ⟨rfl, rfl⟩ := List.append_inj hrest (hnum.value.symm.trans hnum'.value)
  exact ⟨rfl, rfl, rfl⟩

/-- A numeral does not start with a letter. -/
theorem Numeral.head_ne {digits w a b : Bytes} {n : Nat} {c : UInt8} (hnum : Numeral digits n)
    (hc : isDigit c = false) : digits ++ a ++ b ≠ c :: w := by
  obtain ⟨d, tail, rfl⟩ := List.exists_cons_of_ne_nil hnum.nonempty
  intro h
  obtain ⟨rfl, _⟩ := List.cons.inj h
  exact absurd (hnum.allDigits _ List.mem_cons_self) (by simp [hc])

/-- The elements of a container end at its mark. -/
theorem body_of_marked {start : UInt8} {w w' a b : Bytes}
    (h : start :: w ++ [endMark] ++ a = start :: w' ++ [endMark] ++ b) :
    w ++ endMark :: a = w' ++ endMark :: b := by
  simpa using h

theorem closed_items (values : List Value) (rest : Bytes) :
    Closed (.items values) (endMark :: rest) := rfl

theorem closed_pairs (pairs : Pairs) (rest : Bytes) :
    Closed (.pairs pairs) (endMark :: rest) := rfl

/-! ## Words -/

theorem Derives.unique {depth depth' : Nat} {w w' a b : Bytes} {r r' : Reading}
    (h : Derives depth w r) (h' : Derives depth' w' r') (hkind : r.SameKind r')
    (ha : Closed r a) (hb : Closed r' b) (heq : w ++ a = w' ++ b) :
    depth = depth' ∧ w = w' ∧ r = r' ∧ a = b := by
  induction h generalizing depth' w' r' a b with
  | int n =>
    cases h' with
    | int n' =>
      obtain ⟨rfl, rfl⟩ := intWord_unique heq
      exact ⟨rfl, rfl, rfl, rfl⟩
    | str hnum' => exact absurd heq.symm (hnum'.head_ne (by decide))
    | list _ => exact absurd (List.cons.inj heq).1 (by decide)
    | dict _ => exact absurd (List.cons.inj heq).1 (by decide)
    | _ => exact hkind.elim
  | str hnum =>
    cases h' with
    | int n' => exact absurd heq (hnum.head_ne (by decide))
    | str hnum' =>
      obtain ⟨rfl, rfl, rfl⟩ := stringWord_unique hnum hnum' heq
      exact ⟨rfl, rfl, rfl, rfl⟩
    | list _ => exact absurd heq (hnum.head_ne (by decide))
    | dict _ => exact absurd heq (hnum.head_ne (by decide))
    | _ => exact hkind.elim
  | list _ ih =>
    cases h' with
    | int n' => exact absurd (List.cons.inj heq).1 (by decide)
    | str hnum' => exact absurd heq.symm (hnum'.head_ne (by decide))
    | list hitems' =>
      obtain ⟨rfl, rfl, hvalues, hrest⟩ := ih hitems' trivial (closed_items _ _)
        (closed_items _ _) (body_of_marked heq)
      obtain rfl := Reading.items.inj hvalues
      exact ⟨rfl, rfl, rfl, (List.cons.inj hrest).2⟩
    | dict _ => exact absurd (List.cons.inj heq).1 (by decide)
    | _ => exact hkind.elim
  | dict _ ih =>
    cases h' with
    | int n' => exact absurd (List.cons.inj heq).1 (by decide)
    | str hnum' => exact absurd heq.symm (hnum'.head_ne (by decide))
    | list _ => exact absurd (List.cons.inj heq).1 (by decide)
    | dict hpairs' =>
      obtain ⟨rfl, rfl, hvalues, hrest⟩ := ih hpairs' trivial (closed_pairs _ _)
        (closed_pairs _ _) (body_of_marked heq)
      obtain rfl := Reading.pairs.inj hvalues
      exact ⟨rfl, rfl, rfl, (List.cons.inj hrest).2⟩
    | _ => exact hkind.elim
  | noItems =>
    cases h' with
    | noItems => exact ⟨rfl, rfl, rfl, heq⟩
    | item hv' _ =>
      obtain ⟨tail, rfl⟩ := List.head?_eq_some_iff.mp ha
      obtain ⟨c, rest, rfl, hc⟩ := hv'.head ⟨_, rfl⟩
      exact absurd (List.cons.inj heq).1.symm hc
    | _ => exact hkind.elim
  | item hv _ ihv ihrest =>
    cases h' with
    | noItems =>
      obtain ⟨tail, rfl⟩ := List.head?_eq_some_iff.mp hb
      obtain ⟨c, rest, rfl, hc⟩ := hv.head ⟨_, rfl⟩
      exact absurd (List.cons.inj heq).1 hc
    | item hv' hrest' =>
      rw [List.append_assoc, List.append_assoc] at heq
      obtain ⟨rfl, rfl, hvalue, hrest⟩ := ihv hv' trivial trivial trivial heq
      obtain ⟨rfl, rfl, hvalues, rfl⟩ := ihrest hrest' trivial ha hb hrest
      obtain rfl := Reading.value.inj hvalue
      obtain rfl := Reading.items.inj hvalues
      exact ⟨rfl, rfl, rfl, rfl⟩
    | _ => exact hkind.elim
  | noPairs =>
    cases h' with
    | noPairs => exact ⟨rfl, rfl, rfl, heq⟩
    | pair hnum' _ _ =>
      obtain ⟨tail, rfl⟩ := List.head?_eq_some_iff.mp ha
      simp only [List.append_assoc, List.nil_append] at heq
      rw [← List.append_assoc] at heq
      exact absurd heq.symm (hnum'.head_ne (by decide))
    | _ => exact hkind.elim
  | pair hnum _ _ ihv ihrest =>
    cases h' with
    | noPairs =>
      obtain ⟨tail, rfl⟩ := List.head?_eq_some_iff.mp hb
      simp only [List.append_assoc, List.nil_append] at heq
      rw [← List.append_assoc] at heq
      exact absurd heq (hnum.head_ne (by decide))
    | pair hnum' hv' hrest' =>
      rw [List.append_assoc, List.append_assoc, List.append_assoc _ _ b,
        List.append_assoc _ _ (_ ++ b)] at heq
      obtain ⟨rfl, rfl, hafter⟩ := stringWord_unique hnum hnum' heq
      obtain ⟨rfl, rfl, hvalue, hrest⟩ := ihv hv' trivial trivial trivial hafter
      obtain ⟨rfl, rfl, hvalues, rfl⟩ := ihrest hrest' trivial ha hb hrest
      obtain rfl := Reading.value.inj hvalue
      obtain rfl := Reading.pairs.inj hvalues
      exact ⟨rfl, rfl, rfl, rfl⟩
    | _ => exact hkind.elim

theorem encode_inj {v v' : Value} (hwf : v.WF) (hwf' : v'.WF) (h : encode v = encode v') :
    v = v' := by
  obtain ⟨_, _, hvalue, _⟩ := (encode_derives v hwf).unique (encode_derives v' hwf')
    trivial trivial trivial (congrArg (fun word => word ++ []) h)
  exact Reading.value.inj hvalue

/-- **Encodings are not confused.**  Two encodings that begin one and the same string are
those of one value, however deep or long the values are. -/
theorem encode_unique {v v' : Value} {a b : Bytes} (hwf : v.WF) (hwf' : v'.WF)
    (h : encode v ++ a = encode v' ++ b) : v = v' ∧ a = b := by
  obtain ⟨_, _, hvalue, hrest⟩ := (encode_derives v hwf).unique (encode_derives v' hwf')
    trivial trivial trivial h
  exact ⟨Reading.value.inj hvalue, hrest⟩

/-- A dictionary put together from pairs in another order, one of them twice, has the
encoding of the dictionary in order, and is that dictionary. -/
theorem encode_unique_sample :
    encode (.dict (dictOf [(ascii "b", .int 2), (ascii "a", .int 1), (ascii "b", .int 3)])) ++
        ascii "xy" = ascii "d1:ai1e1:bi2eexy" ∧
      Value.dict (dictOf [(ascii "b", .int 2), (ascii "a", .int 1), (ascii "b", .int 3)]) =
        .dict [(ascii "a", .int 1), (ascii "b", .int 2)] ∧
      ascii "xy" = ascii "xy" := by
  have hordered : Value.WF (.dict [(ascii "a", .int 1), (ascii "b", .int 2)]) := by
    have hkeyed : [(ascii "a", Value.int 1), (ascii "b", .int 2)].Pairwise fun a b => a.1 < b.1 :=
      List.pairwise_pair.mpr (by decide)
    exact ⟨hkeyed, trivial, trivial, trivial⟩
  have hread : Value.WF
      (.dict (dictOf [(ascii "b", .int 2), (ascii "a", .int 1), (ascii "b", .int 3)])) := hordered
  exact ⟨rfl, encode_unique hread hordered rfl⟩

/-! ## What is read is well formed -/

theorem wfPairs_iff {pairs : Pairs} : WFPairs pairs ↔ ∀ pair ∈ pairs, pair.2.WF := by
  induction pairs with
  | nil => simp [WFPairs]
  | cons pair rest ih =>
    obtain ⟨key, v⟩ := pair
    rw [WFPairs, ih, List.forall_mem_cons]

theorem heightPairs_le_iff {pairs : Pairs} {n : Nat} :
    heightPairs pairs ≤ n ↔ ∀ pair ∈ pairs, pair.2.height + 1 ≤ n := by
  induction pairs with
  | nil => simp [heightPairs]
  | cons pair rest ih =>
    obtain ⟨key, v⟩ := pair
    rw [heightPairs, Nat.max_le, ih, List.forall_mem_cons]

/-- A dictionary is put together from the pairs that were read. -/
theorem dictOf_keyed (pairs : Pairs) : Keyed Prod.fst (dictOf pairs) ∧ dictOf pairs ⊆ pairs := by
  have hfold : ∀ values : Pairs, Keyed Prod.fst values →
      Keyed Prod.fst (pairs.foldl (fun values pair => Keyed.emplace Prod.fst pair values) values) ∧
      pairs.foldl (fun values pair => Keyed.emplace Prod.fst pair values) values ⊆
        values ++ pairs := by
    induction pairs with
    | nil => exact fun values h => ⟨h, List.subset_append_left _ _⟩
    | cons pair rest ih =>
      intro values h
      obtain ⟨hkeyed, hsubset⟩ := ih _ (Keyed.emplace_keyed h)
      refine ⟨hkeyed, fun x hx => ?_⟩
      rcases List.mem_append.mp (hsubset hx) with hfirst | hrest
      · rcases (Keyed.mem_emplace h).mp hfirst with hold | ⟨rfl, _⟩
        · exact List.mem_append_left _ hold
        · exact List.mem_append_right _ List.mem_cons_self
      · exact List.mem_append_right _ (List.mem_cons_of_mem _ hrest)
  exact hfold [] Keyed.nil

/-- Every dictionary that was read is one. -/
def Reading.WF : Reading → Prop
  | .value v => v.WF
  | .items values => WFItems values
  | .pairs values => WFPairs values

/-- The depth of the deepest node. -/
def Reading.height : Reading → Nat
  | .value v => v.height
  | .items values => heightItems values
  | .pairs values => heightPairs values

/-- A value is read inside the limit. -/
theorem Detail.Reads.depth_le {data : Bytes} {p depth q : Nat} {v : Value} {strings : List Nat}
    (h : Reads data p depth (.value v) q strings) : depth ≤ maxRecursionDepth := by
  cases h with
  | int hdepth _ => exact hdepth
  | str hdepth _ _ _ => exact hdepth
  | list hdepth _ _ => exact hdepth
  | dict hdepth _ _ => exact hdepth

theorem Detail.Reads.wf {data : Bytes} {p depth q : Nat} {r : Reading} {strings : List Nat}
    (h : Reads data p depth r q strings) : r.WF := by
  induction h with
  | int _ _ => trivial
  | str _ _ _ _ => trivial
  | list _ _ _ ih => exact ih
  | @dict _ _ _ pairs _ _ _ _ ih =>
    obtain ⟨hkeyed, hsubset⟩ := dictOf_keyed pairs
    exact ⟨hkeyed, wfPairs_iff.mpr fun pair hmem => wfPairs_iff.mp ih pair (hsubset hmem)⟩
  | noItems _ => trivial
  | item _ _ _ ihv ihrest => exact ⟨ihv, ihrest⟩
  | noPairs _ => trivial
  | pair _ _ _ _ ihv ihrest => exact ⟨ihv, ihrest⟩

/-- Nothing that was read lies below the limit. -/
theorem Detail.Reads.height_le {data : Bytes} {p depth q : Nat} {r : Reading} {strings : List Nat}
    (h : Reads data p depth r q strings) (hdepth : depth ≤ maxRecursionDepth) :
    depth + r.height ≤ maxRecursionDepth := by
  induction h with
  | int _ _ => exact hdepth
  | str _ _ _ _ => exact hdepth
  | list _ _ _ ih => exact ih hdepth
  | @dict _ depth _ pairs _ _ _ _ ih =>
    obtain ⟨_, hsubset⟩ := dictOf_keyed pairs
    have hheight : heightPairs (dictOf pairs) ≤ heightPairs pairs :=
      heightPairs_le_iff.mpr fun pair hmem =>
        heightPairs_le_iff.mp (Nat.le_refl _) pair (hsubset hmem)
    exact Nat.le_trans (Nat.add_le_add_left hheight depth) (ih hdepth)
  | noItems _ => exact hdepth
  | @item _ _ _ _ _ _ _ _ _ hv _ ihv ihrest =>
    have hfirst := ihv hv.depth_le
    have hrest := ihrest hdepth
    simp only [Reading.height, heightItems] at hfirst hrest ⊢
    omega
  | noPairs _ => exact hdepth
  | @pair _ _ _ _ _ _ _ _ _ _ _ _ hv _ ihv ihrest =>
    have hfirst := ihv hv.depth_le
    have hrest := ihrest hdepth
    simp only [Reading.height, heightPairs] at hfirst hrest ⊢
    omega

/-! ## Encoding again -/

/-- A printed number is no longer than any other way to write it. -/
theorem Numeral.length_decimal_le {digits : Bytes} {n : Nat} (h : Numeral digits n) :
    (decimal n).length ≤ digits.length := by
  induction digits using List.reverseRecOn generalizing n with
  | nil => exact absurd rfl h.nonempty
  | append_singleton ds d ih =>
    have hd : isDigit d = true := h.allDigits d (by simp)
    have hlt := digitValue_lt hd
    have hvalue := h.value
    rw [decimalValue_append] at hvalue
    rcases Nat.lt_or_ge n 10 with hsmall | hlarge
    · rw [decimal_of_lt hsmall, List.length_append]
      exact Nat.le_add_left _ _
    · have hne : ds ≠ [] := by
        rintro rfl
        simp [decimalValue] at hvalue
        omega
      have hmore : Numeral ds (n / 10) :=
        ⟨hne, fun c hc => h.allDigits c (List.mem_append_left _ hc), by omega⟩
      rw [decimal_of_le hlarge, List.length_append, List.length_append]
      exact Nat.add_le_add_right (ih hmore) _

/-- The length of what a reading is encoded as. -/
def Reading.size : Reading → Nat
  | .value v => (encode v).length
  | .items values => (encodeItems values).length
  | .pairs values => (encodePairs values).length

theorem length_encodePairs (pairs : Pairs) : (encodePairs pairs).length =
    (pairs.map fun pair => (encodeString pair.1).length + (encode pair.2).length).sum := by
  induction pairs with
  | nil => rfl
  | cons pair rest ih =>
    obtain ⟨key, v⟩ := pair
    rw [encodePairs, List.length_append, List.length_append, ih, List.map_cons, List.sum_cons]

/-- Pairs that are left out make the encoding shorter. -/
theorem length_encodePairs_dictOf (pairs : Pairs) :
    (encodePairs (dictOf pairs)).length ≤ (encodePairs pairs).length := by
  obtain ⟨hkeyed, hsubset⟩ := dictOf_keyed pairs
  have hnodup : (dictOf pairs).Nodup := hkeyed.imp fun hlt heq => ne_of_lt hlt (congrArg _ heq)
  rw [length_encodePairs, length_encodePairs]
  obtain ⟨kept, hperm, hsublist⟩ := hnodup.subperm hsubset
  rw [← (hperm.map _).sum_eq]
  exact (hsublist.map _).sum_le_sum fun _ _ => Nat.zero_le _

/-- Nothing is longer than a word of the grammar that denotes it. -/
theorem Derives.size_le {depth : Nat} {w : Bytes} {r : Reading} (h : Derives depth w r) :
    r.size ≤ w.length := by
  induction h with
  | int n => exact Nat.le_refl _
  | @str digits bytes hnum =>
    have hlen := hnum.length_decimal_le
    simp only [Reading.size, encode, encodeString, List.length_append, List.length_cons]
    omega
  | list _ ih =>
    simp only [Reading.size, encode, List.length_append, List.length_cons] at ih ⊢
    omega
  | @dict _ _ pairs _ ih =>
    have hless := length_encodePairs_dictOf pairs
    simp only [Reading.size, encode, List.length_append, List.length_cons] at ih ⊢
    omega
  | noItems => exact Nat.le_refl _
  | item _ _ ihv ihrest =>
    simp only [Reading.size, encodeItems, List.length_append] at ihv ihrest ⊢
    omega
  | noPairs => exact Nat.le_refl _
  | @pair _ _ digits key _ _ _ _ hnum _ _ ihv ihrest =>
    have hlen := hnum.length_decimal_le
    simp only [Reading.size, encodePairs, encodeString, List.length_append,
      List.length_cons] at ihv ihrest ⊢
    omega

/-- **What the parser returns.**  Whatever octets are parsed, a value that comes back has
its dictionaries in order and without duplicates and nests no deeper than the limit.  When
the input is a word of the grammar, the encoding of the value is no longer than it; and an
encoding that has a length is parsed to the same value again. -/
theorem returns_stable {s : Bytes} {v : Value} (h : Returns s v) :
    v.WF ∧ v.height ≤ maxRecursionDepth ∧ (Denotes s v → (encode v).length ≤ s.length) ∧
      ((encode v).length < 2 ^ 64 → Returns (encode v) v) := by
  obtain ⟨q, strings, hreads⟩ := returns_reads.mp h
  have hwf : v.WF := hreads.wf
  have hheight : v.height ≤ maxRecursionDepth := by
    have hle := hreads.height_le (Nat.zero_le _)
    rwa [Nat.zero_add] at hle
  refine ⟨hwf, hheight, fun hdenotes => ?_, fun hfits => ?_⟩
  · obtain ⟨depth, hword⟩ := hdenotes
    exact hword.size_le
  · have hwhole : (encode v).drop 0 = encode v ++ [] := (List.append_nil _).symm
    obtain ⟨strings', hagain⟩ := reads_encode hfits hwf hwhole (d := 0)
      (by rwa [Nat.zero_add])
    exact returns_reads.mpr ⟨_, strings', hagain⟩

/-- A list with a length that is written with a zero in front, and its encoding. -/
theorem returns_stable_zeroPrefixed :
    Returns (ascii "l02:abe") (.list [.str (ascii "ab")]) ∧
      Returns (ascii "l2:abe") (.list [.str (ascii "ab")]) := by
  have hreturns : Returns (ascii "l02:abe") (.list [.str (ascii "ab")]) := ⟨3, rfl⟩
  obtain ⟨_, _, _, hstable⟩ := returns_stable hreturns
  exact ⟨hreturns, hstable (by decide)⟩

end Bencode

end BitTorrentClient
