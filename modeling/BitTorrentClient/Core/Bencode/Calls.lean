/-
  Core/Bencode/Calls.lean --- the calls that parsing a payload makes.

  `Made data` holds of the calls made while `parse(data)` runs, whether or not it
  returns, and of the positions at which the two loops test their condition.  An
  error of any of them is the outcome of the whole (`outcome_of_made`).  Conversely
  the whole can only fault by a read behind the end, and can only run forever
  around a loop that comes back to a position it was at before.
-/
import BitTorrentClient.Core.Bencode.Reads

set_option autoImplicit false

namespace BitTorrentClient.Bencode.Detail

open Library

/-- A call of one of the functions that return a value. -/
inductive Call where
  | parse (pos depth : Nat)
  | parseInt (pos : Nat)
  | parseString (pos : Nat)
  | parseList (pos depth : Nat)
  | parseDict (pos depth : Nat)

/-- Where the control can be: at a call, or at the head of a loop. -/
inductive Point where
  | call (c : Call)
  | listHead (pos depth : Nat)
  | dictHead (pos depth : Nat)

/-- The point at which a reading begins. -/
def startPoint (r : Reading) (p d : Nat) : Point :=
  match r with
  | .value _ => .call (.parse p d)
  | .items _ => .listHead p d
  | .pairs _ => .dictHead p d

variable {data : Bytes}

/-- The points that parsing the data comes to. -/
inductive Made (data : Bytes) : Point → Prop
  | root : Made data (.call (.parse 0 0))
  | int {p d : Nat} : Made data (.call (.parse p d)) → d ≤ maxRecursionDepth →
      data[p]? = some intStart → Made data (.call (.parseInt p))
  | string {p d : Nat} {c : UInt8} : Made data (.call (.parse p d)) → d ≤ maxRecursionDepth →
      data[p]? = some c → isDigit c = true → Made data (.call (.parseString p))
  | list {p d : Nat} : Made data (.call (.parse p d)) → d ≤ maxRecursionDepth →
      data[p]? = some listStart → Made data (.call (.parseList p d))
  | dict {p d : Nat} : Made data (.call (.parse p d)) → d ≤ maxRecursionDepth →
      data[p]? = some dictStart → Made data (.call (.parseDict p d))
  | listHead {p d : Nat} : Made data (.call (.parseList p d)) → Made data (.listHead (p + 1) d)
  | item {p d : Nat} : Made data (.listHead p d) → moreItems data p = true →
      Made data (.call (.parse p (d + 1)))
  | nextItem {p d q : Nat} {v : Value} {strings : List Nat} : Made data (.listHead p d) →
      moreItems data p = true → Reads data p (d + 1) (.value v) q strings →
      Made data (.listHead q d)
  | dictHead {p d : Nat} : Made data (.call (.parseDict p d)) → Made data (.dictHead (p + 1) d)
  | key {p d : Nat} : Made data (.dictHead p d) → moreItems data p = true →
      Made data (.call (.parseString p))
  | pairValue {p d colon len : Nat} : Made data (.dictHead p d) → moreItems data p = true →
      StringAt data p colon len → Made data (.call (.parse (u64 (colon + 1 + len)) (d + 1)))
  | nextPair {p d colon len q : Nat} {v : Value} {strings : List Nat} :
      Made data (.dictHead p d) → moreItems data p = true → StringAt data p colon len →
      Reads data (u64 (colon + 1 + len)) (d + 1) (.value v) q strings →
      Made data (.dictHead q d)

/-- A list that is called starts with its mark, inside the depth limit. -/
theorem Made.list_start {p d : Nat} (h : Made data (.call (.parseList p d))) :
    d ≤ maxRecursionDepth ∧ data[p]? = some listStart ∧ Made data (.call (.parse p d)) := by
  cases h with
  | list hparse hdepth hc => exact ⟨hdepth, hc, hparse⟩

theorem Made.dict_start {p d : Nat} (h : Made data (.call (.parseDict p d))) :
    d ≤ maxRecursionDepth ∧ data[p]? = some dictStart ∧ Made data (.call (.parse p d)) := by
  cases h with
  | dict hparse hdepth hc => exact ⟨hdepth, hc, hparse⟩

/-! ## Errors travel to the top -/

/-- The point comes to the error `x`.  A call of `parseList` or `parseDict` is the
call of `parse` it was made by. -/
def ErrorAt (data : Bytes) (x : Stop) : Point → Prop
  | .call (.parse p d) => outcome data p d = .error x
  | .call (.parseInt p) => parseInt data p = .error x
  | .call (.parseString p) => parseString data p = .error x
  | .call (.parseList p d) => outcome data p d = .error x
  | .call (.parseDict p d) => outcome data p d = .error x
  | .listHead p d => ∀ before, listOutcome data d (before, p) = .error x
  | .dictHead p d => ∀ before, dictOutcome data d (before, p) = .error x

theorem outcome_of_made {x : Stop} {point : Point} (h : Made data point)
    (herr : ErrorAt data x point) : outcome data 0 0 = .error x := by
  induction h with
  | root => exact herr
  | int _ hdepth hc ih => exact ih ((outcome_int hdepth hc).trans herr)
  | string _ hdepth hc hdigit ih => exact ih ((outcome_str hdepth hc hdigit).trans herr)
  | list _ _ _ ih => exact ih herr
  | dict _ _ _ ih => exact ih herr
  | listHead hlist ih =>
    obtain ⟨hdepth, hc, _⟩ := hlist.list_start
    refine ih ?_
    rw [ErrorAt, outcome_list hdepth hc, herr []]
    rfl
  | item _ hmore ih =>
    refine ih fun before => ?_
    rw [ErrorAt] at herr
    rw [listOutcome_eq, if_pos hmore, herr]
    rfl
  | nextItem _ hmore hreads ih =>
    refine ih fun before => ?_
    have hv : outcome data _ _ = .ok _ := hreads.comes
    rw [listOutcome_eq, if_pos hmore, hv]
    exact herr _
  | dictHead hdict ih =>
    obtain ⟨hdepth, hc, _⟩ := hdict.dict_start
    refine ih ?_
    rw [ErrorAt, outcome_dict hdepth hc, herr []]
    rfl
  | key _ hmore ih =>
    refine ih fun before => ?_
    rw [ErrorAt] at herr
    rw [dictOutcome_eq, if_pos hmore, herr]
    rfl
  | pairValue _ hmore hstring ih =>
    refine ih fun before => ?_
    rw [ErrorAt] at herr
    rw [dictOutcome_eq, if_pos hmore, parseString_eq_ok.mpr ⟨_, _, hstring, rfl⟩]
    simp only [bind, Except.bind, herr]
  | nextPair _ hmore hstring hreads ih =>
    refine ih fun before => ?_
    have hv : outcome data _ _ = .ok _ := hreads.comes
    rw [dictOutcome_eq, if_pos hmore, parseString_eq_ok.mpr ⟨_, _, hstring, rfl⟩]
    simp only [bind, Except.bind, hv]
    exact herr _

/-! ## Leaves neither fault nor hang -/

/-- An exception, or a value. -/
def Proper {α : Type} (r : Except Stop α) : Prop := ∀ x, r = .error x → ∃ e, x = .throws e

theorem proper_ok {α : Type} (a : α) : Proper (.ok a : Except Stop α) := by
  intro x h
  simp at h

theorem proper_throwing {α : Type} (e : StdException) : Proper (throwing e : Except Stop α) := by
  intro x h
  exact ⟨e, (Except.error.inj h).symm⟩

theorem proper_expectChar (p : Nat) (c : UInt8) : Proper (expectChar data p c) := by
  unfold expectChar
  split
  · exact proper_ok _
  · exact proper_throwing _

theorem proper_parseString (p : Nat) : Proper (parseString data p) := by
  unfold parseString
  split
  · exact proper_throwing _
  · split
    · exact proper_throwing _
    · dsimp only
      split
      · exact proper_throwing _
      · exact proper_ok _

theorem proper_parseInt {p : Nat} (h : data[p]? = some intStart) : Proper (parseInt data p) := by
  unfold parseInt
  rw [charAt_eq_ok.mpr h]
  simp only [bind, Except.bind, ne_eq, not_true, if_false]
  split
  · exact proper_throwing _
  · split
    · exact proper_throwing _
    · split
      · exact proper_throwing _
      · exact proper_ok _

/-- Any outcome but one. -/
def Avoids {α : Type} (stop : Stop) (r : Except Stop α) : Prop := r ≠ .error stop

section Avoiding

variable {α β : Type} {stop : Stop}

theorem Avoids.ok (a : α) : Avoids stop (.ok a : Except Stop α) := by simp [Avoids]

theorem Proper.avoids {r : Except Stop α} (h : Proper r) (hstop : ∀ e, stop ≠ .throws e) :
    Avoids stop r := by
  intro hr
  obtain ⟨e, he⟩ := h _ hr
  exact hstop e he

theorem Proper.noFault {r : Except Stop α} (h : Proper r) {f : Fault} : Avoids (.fault f) r :=
  h.avoids (by simp)

theorem Proper.ends {r : Except Stop α} (h : Proper r) : Avoids .unfinished r :=
  h.avoids (by simp)

theorem Avoids.bind {x : Except Stop α} {f : α → Except Stop β} (hx : Avoids stop x)
    (hf : ∀ a, x = .ok a → Avoids stop (f a)) : Avoids stop (x >>= f) := by
  cases x with
  | error e => exact fun h => hx (congrArg Except.error (Except.error.inj h))
  | ok a => exact hf a rfl

end Avoiding

/-! ## Faults -/

/-- Some call of `parse` reads `data[pos]` behind the end. -/
def ReadsPastEnd (data : Bytes) : Prop :=
  ∃ p d, Made data (.call (.parse p d)) ∧ data ≠ [] ∧ d ≤ maxRecursionDepth ∧ data.length ≤ p

section Faults

variable {run : Nat → Nat → Except Stop (Value × Nat)} {f : Fault}

theorem noFault_listLoop
    (hreads : ∀ p d v q, run p d = .ok (v, q) → ∃ strings, Reads data p d (.value v) q strings)
    {depth turns : Nat}
    (hrun : ∀ p, Made data (.call (.parse p (depth + 1))) → Avoids (.fault f) (run p (depth + 1)))
    {s : List Value × Nat} (hmade : Made data (.listHead s.2 depth)) :
    Avoids (.fault f)
      (whileLoop .unfinished (fun s => moreItems data s.2) (listTurn run depth) turns s) := by
  refine whileLoop_ne_error (I := fun s => Made data (.listHead s.2 depth)) Stop.noConfusion
    (fun s hmade hmore => ?_) (fun s s₁ hmade hmore hturn => ?_) hmade turns
  · exact Avoids.bind (hrun _ (hmade.item hmore)) fun _ _ => .ok _
  · obtain ⟨v, strings, hread, _⟩ := reads_of_listTurn hreads hturn
    exact hmade.nextItem hmore hread

theorem noFault_dictLoop
    (hreads : ∀ p d v q, run p d = .ok (v, q) → ∃ strings, Reads data p d (.value v) q strings)
    {depth turns : Nat}
    (hrun : ∀ p, Made data (.call (.parse p (depth + 1))) → Avoids (.fault f) (run p (depth + 1)))
    {s : Pairs × Nat} (hmade : Made data (.dictHead s.2 depth)) :
    Avoids (.fault f)
      (whileLoop .unfinished (fun s => moreItems data s.2) (dictTurn run data depth) turns s) := by
  refine whileLoop_ne_error (I := fun s => Made data (.dictHead s.2 depth)) Stop.noConfusion
    (fun s hmade hmore => ?_) (fun s s₁ hmade hmore hturn => ?_) hmade turns
  · refine Avoids.bind ((proper_parseString _).noFault) fun k hkey => ?_
    obtain ⟨colon, len, hstring, rfl⟩ := parseString_eq_ok.mp hkey
    exact .bind (hrun _ (hmade.pairValue hmore hstring)) fun _ _ => .ok _
  · obtain ⟨colon, len, v, strings, hstring, hread, _⟩ := reads_of_dictTurn hreads hturn
    exact hmade.nextPair hmore hstring hread

end Faults

theorem noFault_parse (hpast : ¬ ReadsPastEnd data) {fuel p d : Nat} {f : Fault}
    (hmade : Made data (.call (.parse p d))) : Avoids (.fault f) (parse data fuel p d) := by
  induction fuel generalizing p d with
  | zero => simp [Avoids, parse]
  | succ fuel ih =>
    unfold parse
    split
    · exact (proper_throwing _).noFault
    · rename_i hempty
      split
      · exact (proper_throwing _).noFault
      · rename_i hdepth
        have hdepth := Nat.le_of_not_lt hdepth
        have hinside : p < data.length := by
          by_contra hbehind
          exact hpast ⟨p, d, hmade, by simpa using hempty, hdepth, Nat.le_of_not_lt hbehind⟩
        have hc := List.getElem?_eq_getElem hinside
        rw [charAt_eq_ok.mpr hc]
        refine .bind (.ok _) fun c hfirst => ?_
        cases hfirst
        split
        · rename_i hint
          rw [hint] at hc
          exact (proper_parseInt hc).noFault
        · split
          · exact (proper_parseString p).noFault
          · split
            · rename_i hlist
              rw [hlist] at hc
              refine .bind ((proper_expectChar _ _).noFault) fun q hstart => ?_
              obtain ⟨_, rfl⟩ := expectChar_eq_ok.mp hstart
              have hhead := (hmade.list hdepth hc).listHead
              refine .bind (noFault_listLoop (fun _ _ _ _ => reads_of_parse) (fun _ => ih) hhead) ?_
              intro s _
              exact .bind ((proper_expectChar _ _).noFault) fun _ _ => .ok _
            · split
              · rename_i hdict
                rw [hdict] at hc
                refine .bind ((proper_expectChar _ _).noFault) fun q hstart => ?_
                obtain ⟨_, rfl⟩ := expectChar_eq_ok.mp hstart
                have hhead := (hmade.dict hdepth hc).dictHead
                refine .bind
                  (noFault_dictLoop (fun _ _ _ _ => reads_of_parse) (fun _ => ih) hhead) ?_
                intro s _
                exact .bind ((proper_expectChar _ _).noFault) fun _ _ => .ok _
              · exact (proper_throwing _).noFault

/-- Parsing faults exactly when it reads behind the end. -/
theorem outcome_fault_iff :
    (∃ f, outcome data 0 0 = .error (.fault f)) ↔ ReadsPastEnd data := by
  constructor
  · rintro ⟨f, h⟩
    obtain ⟨fuel, hfuel⟩ := ((parse_rising data 0 0).eventually_eq_iff (by simp)).mp h
    by_contra hpast
    exact noFault_parse hpast .root hfuel
  · rintro ⟨p, d, hmade, hne, hdepth, hlen⟩
    refine ⟨.outOfRange, outcome_of_made hmade ?_⟩
    have hempty : data.isEmpty = false := by simpa using hne
    rw [ErrorAt, outcome_eq, hempty, if_neg Bool.false_ne_true,
      if_neg (Nat.not_lt.mpr hdepth), charAt, List.getElem?_eq_none hlen]
    rfl

/-! ## Running forever -/

/-- One turn of the loop of `parseList` leads from `p` to `q`. -/
def ListTurn (data : Bytes) (depth p q : Nat) : Prop :=
  moreItems data p = true ∧ ∃ v strings, Reads data p (depth + 1) (.value v) q strings

/-- One turn of the loop of `parseDict` leads from `p` to `q`. -/
def DictTurn (data : Bytes) (depth p q : Nat) : Prop :=
  moreItems data p = true ∧ ∃ colon len v strings, StringAt data p colon len ∧
    Reads data (u64 (colon + 1 + len)) (depth + 1) (.value v) q strings

/-- A loop comes back to a position it was at before. -/
def Revisits (data : Bytes) : Prop :=
  (∃ p d, Made data (.listHead p d) ∧ Relation.TransGen (ListTurn data d) p p) ∨
  (∃ p d, Made data (.dictHead p d) ∧ Relation.TransGen (DictTurn data d) p p)

theorem moreItems_lt {p : Nat} (h : moreItems data p = true) : p < data.length := by
  obtain ⟨c, hc, _⟩ := moreItems_iff.mp h
  exact (List.getElem?_eq_some_iff.mp hc).1

/-- In the model of the loop of `parseList` a turn is a `ListTurn`. -/
theorem turn_list_iff {depth : Nat} {s s' : List Value × Nat} :
    Turn .unfinished (fun s => moreItems data s.2) (fun n => listTurn (parse data n) depth) s s' ↔
      moreItems data s.2 = true ∧ ∃ v strings,
        Reads data s.2 (depth + 1) (.value v) s'.2 strings ∧ s'.1 = s.1 ++ [v] := by
  rw [Turn, listTurn_outcome]
  refine and_congr_right fun _ => ⟨fun h => ?_, ?_⟩
  · obtain ⟨⟨v, q⟩, hv, h⟩ := bind_eq_ok.mp h
    cases h
    obtain ⟨strings, hreads⟩ := outcome_eq_ok.mp hv
    exact ⟨v, strings, hreads, rfl⟩
  · rintro ⟨v, strings, hreads, heq⟩
    exact bind_eq_ok.mpr ⟨_, hreads.comes, by rw [← heq]; rfl⟩

/-- In the model of the loop of `parseDict` a turn is a `DictTurn`. -/
theorem turn_dict_iff {depth : Nat} {s s' : Pairs × Nat} :
    Turn .unfinished (fun s => moreItems data s.2)
        (fun n => dictTurn (parse data n) data depth) s s' ↔
      moreItems data s.2 = true ∧ ∃ colon len v strings, StringAt data s.2 colon len ∧
        Reads data (u64 (colon + 1 + len)) (depth + 1) (.value v) s'.2 strings ∧
        s'.1 = Keyed.emplace Prod.fst (slice data (colon + 1) len, v) s.1 := by
  rw [Turn, dictTurn_outcome]
  refine and_congr_right fun _ => ⟨fun h => ?_, ?_⟩
  · obtain ⟨k, hkey, h⟩ := bind_eq_ok.mp h
    obtain ⟨colon, len, hstring, rfl⟩ := parseString_eq_ok.mp hkey
    obtain ⟨⟨v, q⟩, hv, h⟩ := bind_eq_ok.mp h
    cases h
    obtain ⟨strings, hreads⟩ := outcome_eq_ok.mp hv
    exact ⟨colon, len, v, strings, hstring, hreads, rfl⟩
  · rintro ⟨colon, len, v, strings, hstring, hreads, heq⟩
    refine bind_eq_ok.mpr ⟨_, parseString_eq_ok.mpr ⟨colon, len, hstring, rfl⟩, ?_⟩
    exact bind_eq_ok.mpr ⟨_, hreads.comes, by rw [← heq]; rfl⟩

/-- From a position on a cycle the cycle goes on. -/
theorem exists_step_of_cycle {R : Nat → Nat → Prop} {p : Nat} (h : Relation.TransGen R p p) :
    ∃ q, R p q ∧ Relation.TransGen R q q := by
  obtain ⟨q, hpq, hqp⟩ := Relation.TransGen.head'_iff.mp h
  exact ⟨q, hpq, Relation.TransGen.tail' hqp hpq⟩

/-- A loop that comes back to a position never ends. -/
theorem outcome_of_revisits (h : Revisits data) : outcome data 0 0 = .error .unfinished := by
  rcases h with ⟨p, d, hmade, hcycle⟩ | ⟨p, d, hmade, hcycle⟩
  · refine outcome_of_made hmade fun before => ?_
    refine loop_unfinished (listTurn_rising data d)
      (I := fun s => Relation.TransGen (ListTurn data d) s.2 s.2) ?_ hcycle
    intro s hs
    obtain ⟨q, ⟨hmore, v, strings, hreads⟩, hq⟩ := exists_step_of_cycle hs
    exact ⟨(s.1 ++ [v], q), turn_list_iff.mpr ⟨hmore, v, strings, hreads, rfl⟩, hq⟩
  · refine outcome_of_made hmade fun before => ?_
    refine loop_unfinished (dictTurn_rising data d)
      (I := fun s => Relation.TransGen (DictTurn data d) s.2 s.2) ?_ hcycle
    intro s hs
    obtain ⟨q, ⟨hmore, colon, len, v, strings, hstring, hreads⟩, hq⟩ := exists_step_of_cycle hs
    exact ⟨(_, q), turn_dict_iff.mpr ⟨hmore, colon, len, v, strings, hstring, hreads, rfl⟩, hq⟩

/-- A relation between positions goes down, restricted to the heads of a loop that
are on no cycle. -/
theorem acc_of_head {R : Nat → Nat → Prop} {H : Nat → Prop}
    (hmore : ∀ p q, R p q → moreItems data p = true)
    (hcycle : ∀ p, H p → ¬ Relation.TransGen R p p) (p : Nat) :
    Acc (fun q p => H p ∧ R p q) p := by
  have hbound : ∀ p q, H p ∧ R p q → p < data.length :=
    fun p q h => moreItems_lt (hmore p q h.2)
  refine acc_of_acyclic hbound (fun p h => ?_) p
  obtain ⟨q, ⟨hhead, _⟩, _⟩ := Relation.TransGen.head'_iff.mp h
  exact hcycle p hhead (Relation.TransGen.mono (fun _ _ hstep => hstep.2) p p h)

theorem listOutcome_ends (hrevisits : ¬ Revisits data) {d : Nat}
    (hitem : ∀ p, Made data (.call (.parse p (d + 1))) →
      Avoids .unfinished (outcome data p (d + 1)))
    {s : List Value × Nat} (hmade : Made data (.listHead s.2 d)) :
    Avoids .unfinished (listOutcome data d s) := by
  refine loop_ends (listTurn_rising data d) (I := fun s => Made data (.listHead s.2 d))
    ?_ ?_ ?_ hmade
  · intro s s' hs hturn
    obtain ⟨hmore, v, strings, hreads, _⟩ := turn_list_iff.mp hturn
    exact hs.nextItem hmore hreads
  · intro s hs hmore
    rw [listTurn_outcome]
    exact Avoids.bind (hitem s.2 (hs.item hmore)) fun _ _ => .ok _
  · have hacc := acc_of_head (R := ListTurn data d) (H := fun p => Made data (.listHead p d))
      (fun _ _ h => h.1) (fun p hp hcycle => hrevisits (Or.inl ⟨p, d, hp, hcycle⟩)) s.2
    refine Subrelation.accessible ?_ (InvImage.accessible Prod.snd hacc)
    rintro s' s ⟨hs, hturn⟩
    obtain ⟨hmore, v, strings, hreads, _⟩ := turn_list_iff.mp hturn
    exact ⟨hs, hmore, v, strings, hreads⟩

theorem dictOutcome_ends (hrevisits : ¬ Revisits data) {d : Nat}
    (hvalue : ∀ p, Made data (.call (.parse p (d + 1))) →
      Avoids .unfinished (outcome data p (d + 1)))
    {s : Pairs × Nat} (hmade : Made data (.dictHead s.2 d)) :
    Avoids .unfinished (dictOutcome data d s) := by
  refine loop_ends (dictTurn_rising data d) (I := fun s => Made data (.dictHead s.2 d))
    ?_ ?_ ?_ hmade
  · intro s s' hs hturn
    obtain ⟨hmore, colon, len, v, strings, hstring, hreads, _⟩ := turn_dict_iff.mp hturn
    exact hs.nextPair hmore hstring hreads
  · intro s hs hmore
    rw [dictTurn_outcome]
    refine Avoids.bind ((proper_parseString _).ends) fun k hkey => ?_
    obtain ⟨colon, len, hstring, rfl⟩ := parseString_eq_ok.mp hkey
    exact .bind (hvalue _ (hs.pairValue hmore hstring)) fun _ _ => .ok _
  · have hacc := acc_of_head (R := DictTurn data d) (H := fun p => Made data (.dictHead p d))
      (fun _ _ h => h.1) (fun p hp hcycle => hrevisits (Or.inr ⟨p, d, hp, hcycle⟩)) s.2
    refine Subrelation.accessible ?_ (InvImage.accessible Prod.snd hacc)
    rintro s' s ⟨hs, hturn⟩
    obtain ⟨hmore, colon, len, v, strings, hstring, hreads, _⟩ := turn_dict_iff.mp hturn
    exact ⟨hs, hmore, colon, len, v, strings, hstring, hreads⟩

/-- When no loop comes back, every call ends.  The induction is on the depth that is
left. -/
theorem outcome_ends (hrevisits : ¬ Revisits data) (left : Nat) {p d : Nat}
    (hleft : d + left = maxRecursionDepth + 1) (hmade : Made data (.call (.parse p d))) :
    Avoids .unfinished (outcome data p d) := by
  induction left generalizing p d with
  | zero =>
    rw [outcome_eq]
    split
    · exact (proper_throwing _).ends
    · rw [if_pos (by omega)]
      exact (proper_throwing _).ends
  | succ left ih =>
    have hdepth : d ≤ maxRecursionDepth := by omega
    have hnested : ∀ p, Made data (.call (.parse p (d + 1))) →
        Avoids .unfinished (outcome data p (d + 1)) := fun p => ih (by omega)
    cases hc : data[p]? with
    | none =>
      rw [outcome_eq]
      split
      · exact (proper_throwing _).ends
      · rw [if_neg (Nat.not_lt.mpr hdepth), charAt, hc]
        simp [Avoids, bind, Except.bind]
    | some c =>
      rw [outcome_of_char hdepth hc]
      split
      · rename_i hint
        subst hint
        exact (proper_parseInt hc).ends
      · split
        · exact (proper_parseString p).ends
        · split
          · rename_i hlist
            subst hlist
            have hhead := (hmade.list hdepth hc).listHead
            refine .bind (listOutcome_ends hrevisits hnested hhead) fun s _ => ?_
            exact .bind ((proper_expectChar _ _).ends) fun _ _ => .ok _
          · split
            · rename_i hdict
              subst hdict
              have hhead := (hmade.dict hdepth hc).dictHead
              refine .bind (dictOutcome_ends hrevisits hnested hhead) fun s _ => ?_
              exact .bind ((proper_expectChar _ _).ends) fun _ _ => .ok _
            · exact (proper_throwing _).ends

/-- Parsing runs forever exactly when a loop comes back to a position. -/
theorem outcome_unfinished_iff :
    outcome data 0 0 = .error .unfinished ↔ Revisits data := by
  constructor
  · intro h
    by_contra hrevisits
    exact outcome_ends hrevisits (maxRecursionDepth + 1) (by omega) .root h
  · exact outcome_of_revisits

end BitTorrentClient.Bencode.Detail

namespace BitTorrentClient.Bencode

open Detail

variable {data : Bytes}

/-- An outcome that is no value is that of the nested call. -/
theorem outcome_error_iff {x : Stop} :
    outcome data = .error x ↔ Detail.outcome data 0 0 = .error x := by
  rw [outcome_eq]
  cases Detail.outcome data 0 0 with
  | error y => simp [bind, Except.bind]
  | ok r => simp [bind, Except.bind, pure, Except.pure]

/-- Parsing returns or throws exactly when nothing is read behind the end and no loop
comes back. -/
theorem finishes_iff :
    ((∃ v, Returns data v) ∨ ∃ e, Throws data e) ↔ ¬ ReadsPastEnd data ∧ ¬ Revisits data := by
  rw [← outcome_fault_iff, ← outcome_unfinished_iff]
  simp only [returns_iff, throws_iff, ← outcome_error_iff]
  cases outcome data with
  | ok v => simp
  | error x => cases x <;> simp

end BitTorrentClient.Bencode
