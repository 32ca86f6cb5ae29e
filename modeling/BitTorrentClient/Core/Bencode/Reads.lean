/-
  Core/Bencode/Reads.lean --- what the parser accepts, as a relation.

  `Reads data p depth r q strings` says that `r` is read at `p` and that `q` is the
  position behind it, by the rules of the source and with no mention of loops or
  fuel.  `strings` are the positions at which a length prefix was read, in order.
  The relation is the parser: `parse` returns exactly what is read, and nothing is
  read in two ways.
-/
import BitTorrentClient.Core.Bencode.Outcome

set_option autoImplicit false

namespace BitTorrentClient.Bencode

open Library

/-- What can stand between two positions: a value, the elements of a list, or the
pairs of a dictionary in the order of the data. -/
inductive Reading where
  | value (v : Value)
  | items (values : List Value)
  | pairs (pairs : Pairs)

/-- Two readings of one kind. -/
def Reading.SameKind : Reading → Reading → Prop
  | .value _, .value _ => True
  | .items _, .items _ => True
  | .pairs _, .pairs _ => True
  | _, _ => False

namespace Detail

variable {data : Bytes}

/-! ## Leaves -/

/-- An integer stands at `p` and its mark at `e`. -/
structure IntAt (data : Bytes) (p e : Nat) (n : Int64) : Prop where
  start : data[p]? = some intStart
  mark : find data endMark (p + 1) = some e
  valid : isValidBencodeInt (slice data (p + 1) (e - (p + 1))) = true
  number : stoll (slice data (p + 1) (e - (p + 1))) = .ok n

/-- A length prefix stands at `p`, its colon at `colon`, and the bounds check
passes. -/
structure StringAt (data : Bytes) (p colon len : Nat) : Prop where
  mark : find data colonMark p = some colon
  number : stoul (slice data p (colon - p)) = .ok len
  fits : u64 (colon + 1 + len) ≤ data.length

theorem charAt_eq_ok {p : Nat} {c : UInt8} : charAt data p = .ok c ↔ data[p]? = some c := by
  unfold charAt
  cases data[p]? <;> simp

/-- Data with a character in it is not empty. -/
theorem isEmpty_of_char {p : Nat} {c : UInt8} (hc : data[p]? = some c) : data.isEmpty = false := by
  cases data with
  | nil => simp at hc
  | cons b rest => rfl

theorem expectChar_eq_ok {p q : Nat} {c : UInt8} :
    expectChar data p c = .ok q ↔ data[p]? = some c ∧ q = p + 1 := by
  unfold expectChar throwing
  split
  · rename_i h
    simp [h, eq_comm]
  · rename_i h
    simp [h]

theorem moreItems_iff {p : Nat} :
    moreItems data p = true ↔ ∃ c, data[p]? = some c ∧ c ≠ endMark := by
  unfold moreItems
  cases data[p]? <;> simp

/-- At the mark of the end there is nothing more. -/
theorem moreItems_of_end {p : Nat} (h : data[p]? = some endMark) : moreItems data p = false := by
  simp [moreItems, h]

theorem parseInt_eq_ok {p : Nat} {r : Value × Nat} :
    parseInt data p = .ok r ↔ ∃ e n, IntAt data p e n ∧ r = (.int n, e + 1) := by
  constructor
  · intro h
    unfold parseInt at h
    obtain ⟨c, hc, h⟩ := bind_eq_ok.mp h
    split at h
    · simp [throwing] at h
    · rename_i hstart
      obtain rfl : c = intStart := not_not.mp hstart
      dsimp only at h
      split at h
      · simp [throwing] at h
      · rename_i e hmark
        split at h
        · simp [throwing] at h
        · rename_i hvalid
          split at h
          · simp [throwing] at h
          · rename_i n hnumber
            exact ⟨e, n, ⟨charAt_eq_ok.mp hc, hmark, by simpa using hvalid, hnumber⟩,
              (Except.ok.inj h).symm⟩
  · rintro ⟨e, n, h, rfl⟩
    unfold parseInt
    refine bind_eq_ok.mpr ⟨intStart, charAt_eq_ok.mpr h.start, ?_⟩
    simp only [ne_eq, not_true, if_false, h.mark, h.valid, Bool.not_true, Bool.false_eq_true,
      h.number]
    rfl

theorem parseString_eq_ok {p : Nat} {r : Value × Nat} :
    parseString data p = .ok r ↔ ∃ colon len, StringAt data p colon len ∧
      r = (.str (slice data (colon + 1) len), u64 (colon + 1 + len)) := by
  constructor
  · intro h
    unfold parseString at h
    split at h
    · simp [throwing] at h
    · rename_i colon hmark
      split at h
      · simp [throwing] at h
      · rename_i len hnumber
        dsimp only at h
        split at h
        · simp [throwing] at h
        · rename_i hfits
          exact ⟨colon, len, ⟨hmark, hnumber, Nat.le_of_not_lt hfits⟩, (Except.ok.inj h).symm⟩
  · rintro ⟨colon, len, h, rfl⟩
    unfold parseString
    simp only [h.mark, h.number]
    rw [if_neg (Nat.not_lt.mpr h.fits)]

theorem IntAt.unique {p e e' : Nat} {n n' : Int64} (h : IntAt data p e n)
    (h' : IntAt data p e' n') : e = e' ∧ n = n' := by
  obtain rfl := Option.some.inj (h.mark.symm.trans h'.mark)
  exact ⟨rfl, Except.ok.inj (h.number.symm.trans h'.number)⟩

theorem StringAt.unique {p colon colon' len len' : Nat} (h : StringAt data p colon len)
    (h' : StringAt data p colon' len') : colon = colon' ∧ len = len' := by
  obtain rfl := Option.some.inj (h.mark.symm.trans h'.mark)
  exact ⟨rfl, Except.ok.inj (h.number.symm.trans h'.number)⟩

/-! ## The relation -/

/-- `r` is read at `p`, up to `q`.  The elements of a container are read at the
depth of the container, and up to its end mark. -/
inductive Reads (data : Bytes) : Nat → Nat → Reading → Nat → List Nat → Prop
  | int {p depth e : Nat} {n : Int64} :
      depth ≤ maxRecursionDepth → IntAt data p e n →
      Reads data p depth (.value (.int n)) (e + 1) []
  | str {p depth colon len : Nat} {c : UInt8} :
      depth ≤ maxRecursionDepth → data[p]? = some c → isDigit c = true →
      StringAt data p colon len →
      Reads data p depth (.value (.str (slice data (colon + 1) len))) (u64 (colon + 1 + len)) [p]
  | list {p depth e : Nat} {values : List Value} {strings : List Nat} :
      depth ≤ maxRecursionDepth → data[p]? = some listStart →
      Reads data (p + 1) depth (.items values) e strings →
      Reads data p depth (.value (.list values)) (e + 1) strings
  | dict {p depth e : Nat} {pairs : Pairs} {strings : List Nat} :
      depth ≤ maxRecursionDepth → data[p]? = some dictStart →
      Reads data (p + 1) depth (.pairs pairs) e strings →
      Reads data p depth (.value (.dict (dictOf pairs))) (e + 1) strings
  | noItems {p depth : Nat} :
      data[p]? = some endMark → Reads data p depth (.items []) p []
  | item {p depth q e : Nat} {v : Value} {values : List Value} {strings strings' : List Nat} :
      moreItems data p = true → Reads data p (depth + 1) (.value v) q strings →
      Reads data q depth (.items values) e strings' →
      Reads data p depth (.items (v :: values)) e (strings ++ strings')
  | noPairs {p depth : Nat} :
      data[p]? = some endMark → Reads data p depth (.pairs []) p []
  | pair {p depth colon len q e : Nat} {v : Value} {pairs : Pairs}
      {strings strings' : List Nat} :
      moreItems data p = true → StringAt data p colon len →
      Reads data (u64 (colon + 1 + len)) (depth + 1) (.value v) q strings →
      Reads data q depth (.pairs pairs) e strings' →
      Reads data p depth (.pairs ((slice data (colon + 1) len, v) :: pairs)) e
        (p :: (strings ++ strings'))

/-- The elements of a container end at an end mark. -/
theorem Reads.atEnd {p depth q : Nat} {r : Reading} {strings : List Nat}
    (h : Reads data p depth r q strings) (hr : ∀ v, r ≠ .value v) :
    data[q]? = some endMark := by
  induction h with
  | int _ _ => exact absurd rfl (hr _)
  | str _ _ _ _ => exact absurd rfl (hr _)
  | list _ _ _ _ => exact absurd rfl (hr _)
  | dict _ _ _ _ => exact absurd rfl (hr _)
  | noItems hend => exact hend
  | item _ _ _ _ ih => exact ih (by simp)
  | noPairs hend => exact hend
  | pair _ _ _ _ _ ih => exact ih (by simp)

/-! ## What the parser returns is read -/

section Returned

variable {run : Nat → Nat → Except Stop (Value × Nat)}
  (hrun : ∀ p depth v q, run p depth = .ok (v, q) →
    ∃ strings, Reads data p depth (.value v) q strings)

include hrun

/-- A turn of the loop of `parseList` has read one value. -/
theorem reads_of_listTurn {depth : Nat} {s s₁ : List Value × Nat}
    (h : listTurn run depth s = .ok s₁) : ∃ v strings,
      Reads data s.2 (depth + 1) (.value v) s₁.2 strings ∧ s₁.1 = s.1 ++ [v] := by
  obtain ⟨⟨v, q⟩, hv, h⟩ := bind_eq_ok.mp h
  cases h
  obtain ⟨strings, hreads⟩ := hrun _ _ _ _ hv
  exact ⟨v, strings, hreads, rfl⟩

/-- A turn of the loop of `parseDict` has read a key and a value. -/
theorem reads_of_dictTurn {depth : Nat} {s s₁ : Pairs × Nat}
    (h : dictTurn run data depth s = .ok s₁) : ∃ colon len v strings,
      StringAt data s.2 colon len ∧
      Reads data (u64 (colon + 1 + len)) (depth + 1) (.value v) s₁.2 strings ∧
      s₁.1 = Keyed.emplace Prod.fst (slice data (colon + 1) len, v) s.1 := by
  obtain ⟨k, hkey, h⟩ := bind_eq_ok.mp h
  obtain ⟨colon, len, hstring, rfl⟩ := parseString_eq_ok.mp hkey
  obtain ⟨⟨v, q⟩, hv, h⟩ := bind_eq_ok.mp h
  cases h
  obtain ⟨strings, hreads⟩ := hrun _ _ _ _ hv
  exact ⟨colon, len, v, strings, hstring, hreads, rfl⟩

theorem reads_of_listLoop {depth turns : Nat} {s s' : List Value × Nat}
    (h : whileLoop .unfinished (fun s => moreItems data s.2) (listTurn run depth) turns s = .ok s')
    (hend : data[s'.2]? = some endMark) :
    ∃ values strings, s'.1 = s.1 ++ values ∧
      Reads data s.2 depth (.items values) s'.2 strings := by
  revert hend
  refine whileLoop_eq_ok (P := fun s s' => data[s'.2]? = some endMark → ∃ values strings,
      s'.1 = s.1 ++ values ∧ Reads data s.2 depth (.items values) s'.2 strings)
    (fun s _ hend => ?_) (fun s s₁ s' hmore hturn ih hend => ?_) h
  · exact ⟨[], [], (List.append_nil _).symm, .noItems hend⟩
  · obtain ⟨v, strings, hreads, hvalues⟩ := reads_of_listTurn hrun hturn
    obtain ⟨values, strings', heq, hrest⟩ := ih hend
    exact ⟨v :: values, strings ++ strings', by simp [heq, hvalues], .item hmore hreads hrest⟩

theorem reads_of_dictLoop {depth turns : Nat} {s s' : Pairs × Nat}
    (h : whileLoop .unfinished (fun s => moreItems data s.2) (dictTurn run data depth) turns s =
      .ok s')
    (hend : data[s'.2]? = some endMark) :
    ∃ pairs strings,
      s'.1 = pairs.foldl (fun values pair => Keyed.emplace Prod.fst pair values) s.1 ∧
      Reads data s.2 depth (.pairs pairs) s'.2 strings := by
  revert hend
  refine whileLoop_eq_ok (P := fun s s' => data[s'.2]? = some endMark → ∃ pairs strings,
      s'.1 = pairs.foldl (fun values pair => Keyed.emplace Prod.fst pair values) s.1 ∧
        Reads data s.2 depth (.pairs pairs) s'.2 strings)
    (fun s _ hend => ?_) (fun s s₁ s' hmore hturn ih hend => ?_) h
  · exact ⟨[], [], rfl, .noPairs hend⟩
  · obtain ⟨colon, len, v, strings, hstring, hreads, hvalues⟩ := reads_of_dictTurn hrun hturn
    obtain ⟨pairs, strings', heq, hrest⟩ := ih hend
    rw [hvalues] at heq
    exact ⟨_ :: pairs, s.2 :: (strings ++ strings'), heq, .pair hmore hstring hreads hrest⟩

/-- A call of `parseList` that returns, with the character for it, has read a list. -/
theorem reads_of_parseList {turns p depth q : Nat} {v : Value} (hdepth : depth ≤ maxRecursionDepth)
    (hc : data[p]? = some listStart) (h : parseList run turns data p depth = .ok (v, q)) :
    ∃ strings, Reads data p depth (.value v) q strings := by
  obtain ⟨p', hstart, h⟩ := bind_eq_ok.mp h
  obtain ⟨_, rfl⟩ := expectChar_eq_ok.mp hstart
  obtain ⟨s, hloop, h⟩ := bind_eq_ok.mp h
  obtain ⟨q', hmark, h⟩ := bind_eq_ok.mp h
  obtain ⟨hend, rfl⟩ := expectChar_eq_ok.mp hmark
  cases h
  obtain ⟨values, strings, heq, hreads⟩ := reads_of_listLoop hrun hloop hend
  rw [heq, List.nil_append]
  exact ⟨strings, .list hdepth hc hreads⟩

/-- The same for `parseDict`. -/
theorem reads_of_parseDict {turns p depth q : Nat} {v : Value} (hdepth : depth ≤ maxRecursionDepth)
    (hc : data[p]? = some dictStart) (h : parseDict run turns data p depth = .ok (v, q)) :
    ∃ strings, Reads data p depth (.value v) q strings := by
  obtain ⟨p', hstart, h⟩ := bind_eq_ok.mp h
  obtain ⟨_, rfl⟩ := expectChar_eq_ok.mp hstart
  obtain ⟨s, hloop, h⟩ := bind_eq_ok.mp h
  obtain ⟨q', hmark, h⟩ := bind_eq_ok.mp h
  obtain ⟨hend, rfl⟩ := expectChar_eq_ok.mp hmark
  cases h
  obtain ⟨pairs, strings, heq, hreads⟩ := reads_of_dictLoop hrun hloop hend
  rw [heq]
  exact ⟨strings, .dict hdepth hc hreads⟩

end Returned

theorem reads_of_parse {fuel p depth q : Nat} {v : Value}
    (h : parse data fuel p depth = .ok (v, q)) :
    ∃ strings, Reads data p depth (.value v) q strings := by
  induction fuel generalizing p depth v q with
  | zero => simp [parse] at h
  | succ fuel ih =>
    unfold parse at h
    split at h
    · simp [throwing] at h
    · split at h
      · simp [throwing] at h
      · rename_i hdepth
        have hdepth := Nat.le_of_not_lt hdepth
        obtain ⟨c, hc, h⟩ := bind_eq_ok.mp h
        have hc := charAt_eq_ok.mp hc
        split at h
        · obtain ⟨e, n, hint, heq⟩ := parseInt_eq_ok.mp h
          obtain ⟨rfl, rfl⟩ := Prod.mk.inj heq
          exact ⟨[], .int hdepth hint⟩
        · split at h
          · rename_i hdigit
            obtain ⟨colon, len, hstring, heq⟩ := parseString_eq_ok.mp h
            obtain ⟨rfl, rfl⟩ := Prod.mk.inj heq
            exact ⟨[p], .str hdepth hc hdigit hstring⟩
          · split at h
            · rename_i hlist
              subst hlist
              exact reads_of_parseList (fun _ _ _ _ => ih) hdepth hc h
            · split at h
              · rename_i hdict
                subst hdict
                exact reads_of_parseDict (fun _ _ _ _ => ih) hdepth hc h
              · simp [throwing] at h

/-! ## What is read is returned -/

/-- What the parser comes to at the start of a reading. -/
def Comes (data : Bytes) (p depth : Nat) (r : Reading) (q : Nat) : Prop :=
  match r with
  | .value v => outcome data p depth = .ok (v, q)
  | .items values => ∀ before, listOutcome data depth (before, p) = .ok (before ++ values, q)
  | .pairs pairs => ∀ before, dictOutcome data depth (before, p) =
      .ok (pairs.foldl (fun values pair => Keyed.emplace Prod.fst pair values) before, q)

/-- With a character to look at and a depth inside the limit, only that character
matters. -/
theorem outcome_of_char {p depth : Nat} {c : UInt8} (hdepth : depth ≤ maxRecursionDepth)
    (hc : data[p]? = some c) :
    outcome data p depth =
      if c = intStart then parseInt data p
      else if isDigit c then parseString data p
      else if c = listStart then
        listOutcome data depth ([], p + 1) >>= fun s =>
          expectChar data s.2 endMark >>= fun q => pure (.list s.1, q)
      else if c = dictStart then
        dictOutcome data depth ([], p + 1) >>= fun s =>
          expectChar data s.2 endMark >>= fun q => pure (.dict s.1, q)
      else throwing (.invalidArgument "Invalid bencode data") := by
  rw [outcome_eq, isEmpty_of_char hc, if_neg Bool.false_ne_true, if_neg (Nat.not_lt.mpr hdepth),
    charAt_eq_ok.mpr hc]
  simp only [bind, Except.bind]
  split
  · rfl
  · split
    · rfl
    · split
      · rename_i hlist
        have hid : data[p]? = some listId := hc.trans (congrArg some hlist)
        rw [expectChar_eq_ok.mpr ⟨hid, rfl⟩]
      · split
        · rename_i hdict
          have hid : data[p]? = some dictId := hc.trans (congrArg some hdict)
          rw [expectChar_eq_ok.mpr ⟨hid, rfl⟩]
        · rfl

theorem outcome_int {p depth : Nat} (hdepth : depth ≤ maxRecursionDepth)
    (hc : data[p]? = some intStart) : outcome data p depth = parseInt data p := by
  rw [outcome_of_char hdepth hc, if_pos rfl]

theorem outcome_str {p depth : Nat} {c : UInt8} (hdepth : depth ≤ maxRecursionDepth)
    (hc : data[p]? = some c) (hdigit : isDigit c = true) :
    outcome data p depth = parseString data p := by
  have hne : c ≠ intStart := by
    rintro rfl
    exact absurd hdigit (by decide)
  rw [outcome_of_char hdepth hc, if_neg hne, if_pos hdigit]

theorem outcome_list {p depth : Nat} (hdepth : depth ≤ maxRecursionDepth)
    (hc : data[p]? = some listStart) :
    outcome data p depth = listOutcome data depth ([], p + 1) >>= fun s =>
      expectChar data s.2 endMark >>= fun q => pure (.list s.1, q) := by
  rw [outcome_of_char hdepth hc, if_neg (by decide), if_neg (by decide), if_pos rfl]

theorem outcome_dict {p depth : Nat} (hdepth : depth ≤ maxRecursionDepth)
    (hc : data[p]? = some dictStart) :
    outcome data p depth = dictOutcome data depth ([], p + 1) >>= fun s =>
      expectChar data s.2 endMark >>= fun q => pure (.dict s.1, q) := by
  rw [outcome_of_char hdepth hc, if_neg (by decide), if_neg (by decide), if_neg (by decide),
    if_pos rfl]

theorem Reads.comes {p depth q : Nat} {r : Reading} {strings : List Nat}
    (h : Reads data p depth r q strings) : Comes data p depth r q := by
  induction h with
  | int hdepth hint =>
    rw [Comes, outcome_int hdepth hint.start]
    exact parseInt_eq_ok.mpr ⟨_, _, hint, rfl⟩
  | str hdepth hc hdigit hstring =>
    rw [Comes, outcome_str hdepth hc hdigit]
    exact parseString_eq_ok.mpr ⟨_, _, hstring, rfl⟩
  | list hdepth hc hitems ih =>
    have hend := hitems.atEnd (by simp)
    rw [Comes, outcome_list hdepth hc, ih []]
    exact bind_eq_ok.mpr ⟨_, rfl, bind_eq_ok.mpr ⟨_, expectChar_eq_ok.mpr ⟨hend, rfl⟩, rfl⟩⟩
  | dict hdepth hc hpairs ih =>
    have hend := hpairs.atEnd (by simp)
    rw [Comes, outcome_dict hdepth hc, ih []]
    exact bind_eq_ok.mpr ⟨_, rfl, bind_eq_ok.mpr ⟨_, expectChar_eq_ok.mpr ⟨hend, rfl⟩, rfl⟩⟩
  | noItems hend =>
    intro before
    rw [listOutcome_eq, moreItems_of_end hend, List.append_nil]
    rfl
  | item hmore _ _ ihv ihrest =>
    intro before
    rw [listOutcome_eq, if_pos hmore]
    refine bind_eq_ok.mpr ⟨_, ihv, ?_⟩
    rw [ihrest, List.append_assoc]
    rfl
  | noPairs hend =>
    intro before
    rw [dictOutcome_eq, moreItems_of_end hend]
    rfl
  | pair hmore hstring _ _ ihv ihrest =>
    intro before
    rw [dictOutcome_eq, if_pos hmore]
    refine bind_eq_ok.mpr ⟨_, parseString_eq_ok.mpr ⟨_, _, hstring, rfl⟩, ?_⟩
    exact bind_eq_ok.mpr ⟨_, ihv, ihrest _⟩

/-- `parse` returns exactly what is read. -/
theorem outcome_eq_ok {p depth q : Nat} {v : Value} :
    outcome data p depth = .ok (v, q) ↔ ∃ strings, Reads data p depth (.value v) q strings := by
  constructor
  · intro h
    obtain ⟨fuel, hfuel⟩ := ((parse_rising data p depth).eventually_eq_iff (by simp)).mp h
    exact reads_of_parse hfuel
  · rintro ⟨strings, h⟩
    exact h.comes

/-! ## Readings are unique -/

/-- One position holds a digit or a mark, and not both. -/
theorem isDigit_of_same {p : Nat} {c c' : UInt8} (hc : data[p]? = some c)
    (hdigit : isDigit c = true) (hc' : data[p]? = some c') : isDigit c' = true := by
  obtain rfl := Option.some.inj (hc.symm.trans hc')
  exact hdigit

theorem Reads.unique {p depth q q' : Nat} {r r' : Reading} {strings strings' : List Nat}
    (h : Reads data p depth r q strings) (h' : Reads data p depth r' q' strings')
    (hkind : r.SameKind r') : r = r' ∧ q = q' ∧ strings = strings' := by
  induction h generalizing r' q' strings' with
  | int _ hint =>
    cases h' with
    | int _ hint' =>
      obtain ⟨rfl, rfl⟩ := hint.unique hint'
      exact ⟨rfl, rfl, rfl⟩
    | str _ hc hdigit _ => exact absurd (isDigit_of_same hc hdigit hint.start) (by decide)
    | list _ hc _ => exact absurd (hint.start.symm.trans hc) (by decide)
    | dict _ hc _ => exact absurd (hint.start.symm.trans hc) (by decide)
    | _ => exact hkind.elim
  | str _ hc hdigit hstring =>
    cases h' with
    | int _ hint' => exact absurd (isDigit_of_same hc hdigit hint'.start) (by decide)
    | str _ _ _ hstring' =>
      obtain ⟨rfl, rfl⟩ := hstring.unique hstring'
      exact ⟨rfl, rfl, rfl⟩
    | list _ hc' _ => exact absurd (isDigit_of_same hc hdigit hc') (by decide)
    | dict _ hc' _ => exact absurd (isDigit_of_same hc hdigit hc') (by decide)
    | _ => exact hkind.elim
  | list _ hc _ ih =>
    cases h' with
    | int _ hint' => exact absurd (hc.symm.trans hint'.start) (by decide)
    | str _ hc' hdigit _ => exact absurd (isDigit_of_same hc' hdigit hc) (by decide)
    | list _ _ hitems' =>
      obtain ⟨heq, rfl, rfl⟩ := ih hitems' trivial
      obtain rfl := Reading.items.inj heq
      exact ⟨rfl, rfl, rfl⟩
    | dict _ hc' _ => exact absurd (hc.symm.trans hc') (by decide)
    | _ => exact hkind.elim
  | dict _ hc _ ih =>
    cases h' with
    | int _ hint' => exact absurd (hc.symm.trans hint'.start) (by decide)
    | str _ hc' hdigit _ => exact absurd (isDigit_of_same hc' hdigit hc) (by decide)
    | list _ hc' _ => exact absurd (hc.symm.trans hc') (by decide)
    | dict _ _ hpairs' =>
      obtain ⟨heq, rfl, rfl⟩ := ih hpairs' trivial
      obtain rfl := Reading.pairs.inj heq
      exact ⟨rfl, rfl, rfl⟩
    | _ => exact hkind.elim
  | noItems hend =>
    cases h' with
    | noItems _ => exact ⟨rfl, rfl, rfl⟩
    | item hmore _ _ => exact absurd hmore (by simp [moreItems_of_end hend])
    | _ => exact hkind.elim
  | item hmore _ _ ihv ihrest =>
    cases h' with
    | noItems hend => exact absurd hmore (by simp [moreItems_of_end hend])
    | item _ hv' hrest' =>
      obtain ⟨heq, rfl, rfl⟩ := ihv hv' trivial
      obtain rfl := Reading.value.inj heq
      obtain ⟨heq, rfl, rfl⟩ := ihrest hrest' trivial
      obtain rfl := Reading.items.inj heq
      exact ⟨rfl, rfl, rfl⟩
    | _ => exact hkind.elim
  | noPairs hend =>
    cases h' with
    | noPairs _ => exact ⟨rfl, rfl, rfl⟩
    | pair hmore _ _ _ => exact absurd hmore (by simp [moreItems_of_end hend])
    | _ => exact hkind.elim
  | pair hmore hstring _ _ ihv ihrest =>
    cases h' with
    | noPairs hend => exact absurd hmore (by simp [moreItems_of_end hend])
    | pair _ hstring' hv' hrest' =>
      obtain ⟨rfl, rfl⟩ := hstring.unique hstring'
      obtain ⟨heq, rfl, rfl⟩ := ihv hv' trivial
      obtain rfl := Reading.value.inj heq
      obtain ⟨heq, rfl, rfl⟩ := ihrest hrest' trivial
      obtain rfl := Reading.pairs.inj heq
      exact ⟨rfl, rfl, rfl⟩
    | _ => exact hkind.elim

end Detail

end BitTorrentClient.Bencode
