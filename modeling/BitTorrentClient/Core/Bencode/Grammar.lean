/-
  Core/Bencode/Grammar.lean --- the documented grammar, and the parser on its words.

  `Derives depth w r` says that the octets `w` are the reading `r` by the grammar
  in the comments of `core/bencode_parser.hpp`; `depth` is the depth of the deepest
  node.  A word that stands in the data is read as what it derives, if it nests no
  deeper than the limit allows, and otherwise the limit is reported.  Conversely
  a reading all of whose length prefixes are plain is a word of the grammar.
-/
import BitTorrentClient.Core.Bencode.Calls
import BitTorrentClient.Core.Bencode.Numerals

set_option autoImplicit false

namespace BitTorrentClient.Bencode

open Library

/-- The words of the grammar and what they denote.  An integer is in canonical
decimal, a length is any non-empty run of digits, and of two pairs with one key
the first counts. -/
inductive Derives : Nat → Bytes → Reading → Prop
  | int (n : Int64) :
      Derives 0 (intStart :: signedDecimal n.toInt ++ [endMark]) (.value (.int n))
  | str {digits bytes : Bytes} : Numeral digits bytes.length →
      Derives 0 (digits ++ colonMark :: bytes) (.value (.str bytes))
  | list {depth : Nat} {w : Bytes} {values : List Value} :
      Derives depth w (.items values) →
      Derives depth (listStart :: w ++ [endMark]) (.value (.list values))
  | dict {depth : Nat} {w : Bytes} {pairs : Pairs} :
      Derives depth w (.pairs pairs) →
      Derives depth (dictStart :: w ++ [endMark]) (.value (.dict (dictOf pairs)))
  | noItems : Derives 0 [] (.items [])
  | item {depth depth' : Nat} {w w' : Bytes} {v : Value} {values : List Value} :
      Derives depth w (.value v) → Derives depth' w' (.items values) →
      Derives (max (depth + 1) depth') (w ++ w') (.items (v :: values))
  | noPairs : Derives 0 [] (.pairs [])
  | pair {depth depth' : Nat} {digits key w w' : Bytes} {v : Value} {pairs : Pairs} :
      Numeral digits key.length →
      Derives depth w (.value v) → Derives depth' w' (.pairs pairs) →
      Derives (max (depth + 1) depth') (digits ++ colonMark :: key ++ w ++ w')
        (.pairs ((key, v) :: pairs))

/-- The whole of `s` is derivable and denotes `v`. -/
def Denotes (s : Bytes) (v : Value) : Prop := ∃ depth, Derives depth s (.value v)

/-- A value starts with a character, and not with the end mark. -/
theorem Derives.head {depth : Nat} {w : Bytes} {r : Reading} (h : Derives depth w r)
    (hr : ∃ v, r = .value v) : ∃ c rest, w = c :: rest ∧ c ≠ endMark := by
  cases h with
  | int n => exact ⟨_, _, rfl, by decide⟩
  | @str digits bytes hnum =>
    obtain ⟨c, rest, rfl⟩ := List.exists_cons_of_ne_nil hnum.nonempty
    refine ⟨c, _, rfl, ?_⟩
    rintro rfl
    exact hnum.not_mem (by decide) List.mem_cons_self
  | list _ => exact ⟨_, _, rfl, by decide⟩
  | dict _ => exact ⟨_, _, rfl, by decide⟩
  | _ => simp at hr

namespace Detail

variable {data : Bytes}

/-- The length prefix at `p` is plain: a run of digits, a colon, and as many octets
as the digits say. -/
def Plain (data : Bytes) (p : Nat) : Prop :=
  ∃ digits bytes rest, Numeral digits bytes.length ∧
    data.drop p = digits ++ colonMark :: bytes ++ rest

/-! ## Leaves in the data -/

theorem length_le_of_drop {front rest : Bytes} {p : Nat} (h : data.drop p = front ++ rest)
    (hne : front ≠ []) : p + front.length ≤ data.length := by
  have hlen := congrArg List.length h
  rw [List.length_drop, List.length_append] at hlen
  have hpos : front.length ≠ 0 := fun hz => hne (List.length_eq_zero_iff.mp hz)
  omega

/-- What is read of a plain string. -/
theorem stringAt_of_drop (hsize : data.length < 2 ^ 64) {p : Nat} {digits bytes rest : Bytes}
    (hnum : Numeral digits bytes.length)
    (h : data.drop p = digits ++ colonMark :: bytes ++ rest) :
    StringAt data p (p + digits.length) bytes.length ∧
      slice data (p + digits.length + 1) bytes.length = bytes ∧
      u64 (p + digits.length + 1 + bytes.length) =
        p + (digits ++ colonMark :: bytes).length := by
  have hall : data.drop p = digits ++ colonMark :: (bytes ++ rest) := by
    rw [h, List.append_assoc, List.cons_append]
  have hbytes : data.drop (p + digits.length + 1) = bytes ++ rest := by
    have hcolon := drop_add_of_drop hall
    rw [← List.drop_drop, hcolon]
    rfl
  have hend := length_le_of_drop h (by simp)
  rw [List.length_append, List.length_cons] at hend
  have hsum : u64 (p + digits.length + 1 + bytes.length) =
      p + digits.length + 1 + bytes.length := u64_of_lt (by omega)
  refine ⟨⟨find_of_drop hall (hnum.not_mem (by decide)), ?_, ?_⟩, slice_of_drop hbytes, ?_⟩
  · rw [Nat.add_sub_cancel_left, slice_of_drop hall]
    exact stoul_numeral hnum (by omega)
  · rw [hsum]
    omega
  · rw [hsum, List.length_append, List.length_cons]
    omega

/-- What a container holds starts behind its mark. -/
theorem drop_body {p : Nat} {start : UInt8} {w rest : Bytes}
    (h : data.drop p = start :: w ++ [endMark] ++ rest) :
    data.drop (p + 1) = w ++ endMark :: rest := by
  rw [← List.drop_drop, h]
  simp

/-- A container is two marks longer than what it holds. -/
theorem length_marked {p : Nat} {start : UInt8} {w : Bytes} :
    p + (start :: w ++ [endMark]).length = p + 1 + w.length + 1 := by
  simp
  omega

/-- What is read of a printed integer. -/
theorem intAt_of_drop {p : Nat} {rest : Bytes} (n : Int64)
    (h : data.drop p = intStart :: signedDecimal n.toInt ++ [endMark] ++ rest) :
    IntAt data p (p + 1 + (signedDecimal n.toInt).length) n := by
  have hbody : data.drop (p + 1) = signedDecimal n.toInt ++ endMark :: rest := drop_body h
  have hslice := slice_of_drop hbody
  refine ⟨getElem?_of_drop h, find_of_drop hbody (endMark_not_mem_signedDecimal _), ?_, ?_⟩
  · rw [Nat.add_sub_cancel_left, hslice]
    exact isValidBencodeInt_signedDecimal _
  · rw [Nat.add_sub_cancel_left, hslice, stoll_signedDecimal, rangeChecked_toInt]

/-! ## Words are read as what they derive -/

/-- The elements of a container are followed by its end mark. -/
def Closed (r : Reading) (rest : Bytes) : Prop :=
  match r with
  | .value _ => True
  | .items _ => rest.head? = some endMark
  | .pairs _ => rest.head? = some endMark

theorem moreItems_of_derives {depth p : Nat} {w rest : Bytes} {v : Value}
    (h : Derives depth w (.value v)) (hdrop : data.drop p = w ++ rest) :
    moreItems data p = true := by
  obtain ⟨c, tail, rfl, hc⟩ := h.head ⟨v, rfl⟩
  exact moreItems_iff.mpr ⟨c, getElem?_of_drop hdrop, hc⟩

theorem moreItems_of_key {p : Nat} {digits key rest : Bytes} (hnum : Numeral digits key.length)
    (hdrop : data.drop p = digits ++ colonMark :: key ++ rest) : moreItems data p = true := by
  obtain ⟨c, tail, rfl⟩ := List.exists_cons_of_ne_nil hnum.nonempty
  refine moreItems_iff.mpr ⟨c, getElem?_of_drop hdrop, ?_⟩
  rintro rfl
  exact hnum.not_mem (by decide) List.mem_cons_self

/-- A pair is a key and the rest of its word. -/
theorem key_of_drop {p : Nat} {digits key w w' rest : Bytes}
    (h : data.drop p = digits ++ colonMark :: key ++ w ++ w' ++ rest) :
    data.drop p = digits ++ colonMark :: key ++ (w ++ (w' ++ rest)) := by
  rw [h]
  simp only [List.append_assoc]

theorem Derives.reads (hsize : data.length < 2 ^ 64) {depth p d : Nat} {w rest : Bytes}
    {r : Reading} (h : Derives depth w r) (hdrop : data.drop p = w ++ rest)
    (hclosed : Closed r rest) (hdepth : d + depth ≤ maxRecursionDepth) :
    ∃ strings, Reads data p d r (p + w.length) strings ∧ ∀ s ∈ strings, Plain data s := by
  induction h generalizing p d rest with
  | int n =>
    refine ⟨[], ?_, by simp⟩
    rw [length_marked]
    exact .int (by omega) (intAt_of_drop n hdrop)
  | @str digits bytes hnum =>
    obtain ⟨hstring, hslice, hend⟩ := stringAt_of_drop hsize hnum hdrop
    obtain ⟨c, tail, rfl⟩ := List.exists_cons_of_ne_nil hnum.nonempty
    have hread : Reads data p d (.value (.str _)) _ [p] :=
      .str (by omega) (getElem?_of_drop hdrop) (hnum.allDigits c List.mem_cons_self) hstring
    rw [hslice, hend] at hread
    refine ⟨[p], hread, fun s hs => ?_⟩
    obtain rfl := List.mem_singleton.mp hs
    exact ⟨_, bytes, rest, hnum, hdrop⟩
  | @list depth w values _ ih =>
    obtain ⟨strings, hread, hplain⟩ := ih (drop_body hdrop) rfl hdepth
    refine ⟨strings, ?_, hplain⟩
    rw [length_marked]
    exact .list (by omega) (getElem?_of_drop hdrop) hread
  | @dict depth w pairs _ ih =>
    obtain ⟨strings, hread, hplain⟩ := ih (drop_body hdrop) rfl hdepth
    refine ⟨strings, ?_, hplain⟩
    rw [length_marked]
    exact .dict (by omega) (getElem?_of_drop hdrop) hread
  | noItems =>
    obtain ⟨tail, rfl⟩ := List.head?_eq_some_iff.mp hclosed
    exact ⟨[], .noItems (getElem?_of_drop hdrop), by simp⟩
  | @item depth depth' w w' v values hv _ ihv ihrest =>
    rw [List.append_assoc] at hdrop
    obtain ⟨strings, hread, hplain⟩ := ihv hdrop trivial (d := d + 1) (by omega)
    obtain ⟨strings', hread', hplain'⟩ :=
      ihrest (drop_add_of_drop hdrop) hclosed (d := d) (by omega)
    refine ⟨strings ++ strings', ?_, List.forall_mem_append.mpr ⟨hplain, hplain'⟩⟩
    rw [List.length_append, ← Nat.add_assoc]
    exact .item (moreItems_of_derives hv hdrop) hread hread'
  | noPairs =>
    obtain ⟨tail, rfl⟩ := List.head?_eq_some_iff.mp hclosed
    exact ⟨[], .noPairs (getElem?_of_drop hdrop), by simp⟩
  | @pair depth depth' digits key w w' v pairs hnum _ _ ihv ihrest =>
    have hkey := key_of_drop hdrop
    have hvalue := drop_add_of_drop hkey
    obtain ⟨hstring, hslice, hend⟩ := stringAt_of_drop hsize hnum hkey
    obtain ⟨strings, hread, hplain⟩ := ihv hvalue trivial (d := d + 1) (by omega)
    obtain ⟨strings', hread', hplain'⟩ :=
      ihrest (drop_add_of_drop hvalue) hclosed (d := d) (by omega)
    have hmore := moreItems_of_key hnum hkey
    rw [← hend] at hread hread'
    have hpair := Reads.pair hmore hstring hread hread'
    rw [hslice, hend] at hpair
    refine ⟨p :: (strings ++ strings'), ?_, List.forall_mem_cons.mpr ⟨?_, ?_⟩⟩
    · rw [List.length_append, List.length_append, ← Nat.add_assoc, ← Nat.add_assoc]
      exact hpair
    · exact ⟨digits, key, _, hnum, hkey⟩
    · exact List.forall_mem_append.mpr ⟨hplain, hplain'⟩

/-! ## Words that nest too deep -/

theorem outcome_too_deep {p d : Nat} {front rest : Bytes} (h : data.drop p = front ++ rest)
    (hne : front ≠ []) (hd : maxRecursionDepth < d) :
    outcome data p d = throwing depthLimitExceeded := by
  obtain ⟨c, tail, rfl⟩ := List.exists_cons_of_ne_nil hne
  rw [outcome_eq, isEmpty_of_char (getElem?_of_drop h), if_neg Bool.false_ne_true, if_pos hd]

/-- A container is opened inside the limit. -/
def Opened (r : Reading) (d : Nat) : Prop :=
  match r with
  | .value _ => True
  | .items _ => d ≤ maxRecursionDepth
  | .pairs _ => d ≤ maxRecursionDepth

theorem Derives.too_deep (hsize : data.length < 2 ^ 64) {depth p d : Nat} {w rest : Bytes}
    {r : Reading} (h : Derives depth w r) (hdrop : data.drop p = w ++ rest)
    (hopened : Opened r d) (hdepth : maxRecursionDepth < d + depth) :
    ErrorAt data (.throws depthLimitExceeded) (startPoint r p d) := by
  induction h generalizing p d rest with
  | int n => exact outcome_too_deep hdrop (by simp) hdepth
  | str hnum => exact outcome_too_deep hdrop (by simp) hdepth
  | @list depth w values _ ih =>
    rcases Nat.lt_or_ge maxRecursionDepth d with hd | hd
    · exact outcome_too_deep hdrop (by simp) hd
    · have hloop : ∀ before, listOutcome data d (before, p + 1) = throwing depthLimitExceeded :=
        ih (drop_body hdrop) hd hdepth
      rw [startPoint, ErrorAt, outcome_list hd (getElem?_of_drop hdrop), hloop []]
      rfl
  | @dict depth w pairs _ ih =>
    rcases Nat.lt_or_ge maxRecursionDepth d with hd | hd
    · exact outcome_too_deep hdrop (by simp) hd
    · have hloop : ∀ before, dictOutcome data d (before, p + 1) = throwing depthLimitExceeded :=
        ih (drop_body hdrop) hd hdepth
      rw [startPoint, ErrorAt, outcome_dict hd (getElem?_of_drop hdrop), hloop []]
      rfl
  | noItems => exact absurd hopened (Nat.not_le.mpr hdepth)
  | @item depth depth' w w' v values hv _ ihv ihrest =>
    rw [List.append_assoc] at hdrop
    have hmore := moreItems_of_derives hv hdrop
    intro before
    rw [listOutcome_eq, if_pos hmore]
    rcases Nat.lt_or_ge maxRecursionDepth (d + 1 + depth) with hd | hd
    · have hfirst : outcome data p (d + 1) = throwing depthLimitExceeded := ihv hdrop trivial hd
      rw [hfirst]
      rfl
    · obtain ⟨strings, hread, _⟩ := Derives.reads hsize hv hdrop trivial hd
      have hfirst : outcome data p (d + 1) = .ok (v, p + w.length) := hread.comes
      rw [hfirst]
      exact ihrest (drop_add_of_drop hdrop) hopened (by omega) _
  | noPairs => exact absurd hopened (Nat.not_le.mpr hdepth)
  | @pair depth depth' digits key w w' v pairs hnum hv _ ihv ihrest =>
    have hkey := key_of_drop hdrop
    have hvalue := drop_add_of_drop hkey
    obtain ⟨hstring, hslice, hend⟩ := stringAt_of_drop hsize hnum hkey
    have hmore := moreItems_of_key hnum hkey
    intro before
    rw [dictOutcome_eq, if_pos hmore, parseString_eq_ok.mpr ⟨_, _, hstring, rfl⟩, hend]
    simp only [bind, Except.bind]
    rcases Nat.lt_or_ge maxRecursionDepth (d + 1 + depth) with hd | hd
    · have hfirst : outcome data (p + (digits ++ colonMark :: key).length) (d + 1) =
          throwing depthLimitExceeded := ihv hvalue trivial hd
      rw [hfirst]
      rfl
    · obtain ⟨strings, hread, _⟩ := Derives.reads hsize hv hvalue trivial hd
      have hfirst : outcome data (p + (digits ++ colonMark :: key).length) (d + 1) =
          .ok (v, p + (digits ++ colonMark :: key).length + w.length) := hread.comes
      rw [hfirst]
      exact ihrest (drop_add_of_drop hvalue) hopened (by omega) _

/-! ## Plain readings are words -/

theorem Reads.derives (hsize : data.length < 2 ^ 64) {p d q : Nat} {r : Reading}
    {strings : List Nat} (h : Reads data p d r q strings)
    (hplain : ∀ s ∈ strings, Plain data s) :
    ∃ depth w, Derives depth w r ∧ data.drop p = w ++ data.drop q ∧ q = p + w.length := by
  induction h with
  | @int p d e n _ hint =>
    have hword := eq_signedDecimal hint.valid hint.number
    obtain ⟨hle, hmark, _⟩ := find_eq_some hint.mark
    refine ⟨0, _, .int n, ?_, ?_⟩
    · have hbody : data.drop (p + 1) = signedDecimal n.toInt ++ data.drop e := by
        rw [← hword, slice]
        have hsplit := List.take_append_drop (e - (p + 1)) (data.drop (p + 1))
        rw [List.drop_drop, Nat.add_sub_cancel' hle] at hsplit
        exact hsplit.symm
      rw [drop_of_getElem? hint.start, hbody, drop_of_getElem? hmark]
      simp
    · have hlen := congrArg List.length hword
      rw [length_slice] at hlen
      have hlt := find_lt hint.mark
      simp
      omega
  | @str p d colon len c _ hc hdigit hstring =>
    obtain ⟨digits, bytes, rest, hnum, hdrop⟩ := hplain p (by simp)
    obtain ⟨hstring', hslice, hend⟩ := stringAt_of_drop hsize hnum hdrop
    obtain ⟨rfl, rfl⟩ := hstring.unique hstring'
    rw [hslice, hend]
    exact ⟨0, _, .str hnum, by rw [drop_add_of_drop hdrop, hdrop], rfl⟩
  | @list p d e values strings _ hc hitems ih =>
    obtain ⟨depth, w, hw, hdrop, rfl⟩ := ih hplain
    refine ⟨depth, _, .list hw, ?_, ?_⟩
    · rw [drop_of_getElem? hc, hdrop, drop_of_getElem? (hitems.atEnd (by simp))]
      simp
    · simp
      omega
  | @dict p d e pairs strings _ hc hpairs ih =>
    obtain ⟨depth, w, hw, hdrop, rfl⟩ := ih hplain
    refine ⟨depth, _, .dict hw, ?_, ?_⟩
    · rw [drop_of_getElem? hc, hdrop, drop_of_getElem? (hpairs.atEnd (by simp))]
      simp
    · simp
      omega
  | noItems _ => exact ⟨0, [], .noItems, rfl, rfl⟩
  | item _ _ _ ihv ihrest =>
    obtain ⟨hfirst, hothers⟩ := List.forall_mem_append.mp hplain
    obtain ⟨depth, w, hw, hdrop, rfl⟩ := ihv hfirst
    obtain ⟨depth', w', hw', hdrop', rfl⟩ := ihrest hothers
    refine ⟨_, _, .item hw hw', ?_, ?_⟩
    · rw [hdrop, hdrop', List.append_assoc]
    · rw [List.length_append, Nat.add_assoc]
  | noPairs _ => exact ⟨0, [], .noPairs, rfl, rfl⟩
  | @pair p d colon len q e v pairs strings strings' _ hstring _ _ ihv ihrest =>
    obtain ⟨⟨digits, bytes, rest, hnum, hkey⟩, hplain⟩ := List.forall_mem_cons.mp hplain
    obtain ⟨hfirst, hothers⟩ := List.forall_mem_append.mp hplain
    obtain ⟨hstring', hslice, hend⟩ := stringAt_of_drop hsize hnum hkey
    obtain ⟨rfl, rfl⟩ := hstring.unique hstring'
    obtain ⟨depth, w, hw, hdrop, rfl⟩ := ihv hfirst
    obtain ⟨depth', w', hw', hdrop', rfl⟩ := ihrest hothers
    rw [hend] at hdrop hdrop' ⊢
    rw [hslice]
    refine ⟨_, _, .pair hnum hw hw', ?_, ?_⟩
    · rw [hkey, ← drop_add_of_drop hkey, hdrop, hdrop']
      simp only [List.append_assoc]
    · simp only [List.length_append]
      omega

end Detail

end BitTorrentClient.Bencode
