/-
  Core/Bencode/Outcome.lean --- the parser without its fuel.

  `outcome` is what a call of `parse` comes to with as much fuel as it takes: a
  value, an exception, a fault, or `unfinished` when the call never ends.
  `listOutcome` and `dictOutcome` are the same for the two loops.  The three
  satisfy the equations of the source, and nothing after this file mentions fuel
  except to say that a result was reached.
-/
import BitTorrentClient.Core.Bencode.Parser

set_option autoImplicit false

namespace BitTorrentClient.Bencode

open Library

namespace Detail

variable {data : Bytes}

/-! ## More fuel changes nothing else -/

section Below

variable {run run' : Nat → Nat → Except Stop (Value × Nat)}
  (hrun : ∀ pos depth, Below .unfinished (run pos depth) (run' pos depth))

include hrun

theorem listTurn_below (depth : Nat) (s : List Value × Nat) :
    Below .unfinished (listTurn run depth s) (listTurn run' depth s) :=
  (hrun s.2 (depth + 1)).bind fun _ => Below.refl _

theorem dictTurn_below (depth : Nat) (s : Pairs × Nat) :
    Below .unfinished (dictTurn run data depth s) (dictTurn run' data depth s) := by
  refine (Below.refl (parseString data s.2)).bind fun r => ?_
  obtain ⟨keyVal, pos⟩ := r
  cases keyVal with
  | str key => exact (hrun pos (depth + 1)).bind fun _ => Below.refl _
  | _ => exact Below.refl _

theorem parseList_below {m n : Nat} (hmn : m ≤ n) (pos depth : Nat) :
    Below .unfinished (parseList run m data pos depth) (parseList run' n data pos depth) :=
  (Below.refl (expectChar data pos listId)).bind fun pos =>
    (whileLoop_below (listTurn_below hrun depth) m n hmn ([], pos)).bind fun _ => Below.refl _

theorem parseDict_below {m n : Nat} (hmn : m ≤ n) (pos depth : Nat) :
    Below .unfinished (parseDict run m data pos depth) (parseDict run' n data pos depth) :=
  (Below.refl (expectChar data pos dictId)).bind fun pos =>
    (whileLoop_below (dictTurn_below hrun depth) m n hmn ([], pos)).bind fun _ => Below.refl _

end Below

theorem parse_below (data : Bytes) : ∀ m n, m ≤ n → ∀ pos depth,
    Below .unfinished (parse data m pos depth) (parse data n pos depth) := by
  intro m
  induction m with
  | zero => exact fun _ _ _ _ => Or.inl rfl
  | succ m ih =>
    intro n hmn pos depth
    cases n with
    | zero => exact absurd hmn (Nat.not_succ_le_zero m)
    | succ n =>
      have hle := Nat.le_of_succ_le_succ hmn
      unfold parse
      split
      · exact Below.refl _
      · split
        · exact Below.refl _
        · refine (Below.refl (charAt data pos)).bind fun c => ?_
          split
          · exact Below.refl _
          · split
            · exact Below.refl _
            · split
              · exact parseList_below (ih n hle) hle pos depth
              · split
                · exact parseDict_below (ih n hle) hle pos depth
                · exact Below.refl _

theorem parse_rising (data : Bytes) (pos depth : Nat) :
    Rising .unfinished fun n => parse data n pos depth :=
  fun m n hmn => parse_below data m n hmn pos depth

theorem listTurn_rising (data : Bytes) (depth : Nat) (s : List Value × Nat) :
    Rising .unfinished fun n => listTurn (parse data n) depth s :=
  fun m n hmn => listTurn_below (parse_below data m n hmn) depth s

theorem dictTurn_rising (data : Bytes) (depth : Nat) (s : Pairs × Nat) :
    Rising .unfinished fun n => dictTurn (parse data n) data depth s :=
  fun m n hmn => dictTurn_below (parse_below data m n hmn) depth s

/-! ## Outcomes -/

/-- What `parse` comes to. -/
noncomputable def outcome (data : Bytes) (pos depth : Nat) : Except Stop (Value × Nat) :=
  eventually .unfinished fun n => parse data n pos depth

/-- What the loop of `parseList` comes to. -/
noncomputable def listOutcome (data : Bytes) (depth : Nat) (s : List Value × Nat) :
    Except Stop (List Value × Nat) :=
  eventually .unfinished
    (loop .unfinished (fun s => moreItems data s.2) (fun n => listTurn (parse data n) depth) s)

/-- What the loop of `parseDict` comes to. -/
noncomputable def dictOutcome (data : Bytes) (depth : Nat) (s : Pairs × Nat) :
    Except Stop (Pairs × Nat) :=
  eventually .unfinished
    (loop .unfinished (fun s => moreItems data s.2) (fun n => dictTurn (parse data n) data depth) s)

theorem listTurn_outcome (data : Bytes) (depth : Nat) (s : List Value × Nat) :
    (eventually .unfinished fun n => listTurn (parse data n) depth s) =
      outcome data s.2 (depth + 1) >>= fun r => pure (s.1 ++ [r.1], r.2) := by
  unfold listTurn outcome
  rw [eventually_bind (parse_rising data s.2 (depth + 1)) fun _ => Rising.const _]
  simp only [eventually_const]

theorem listOutcome_eq (data : Bytes) (depth : Nat) (s : List Value × Nat) :
    listOutcome data depth s =
      if moreItems data s.2 then
        outcome data s.2 (depth + 1) >>= fun r => listOutcome data depth (s.1 ++ [r.1], r.2)
      else .ok s := by
  unfold listOutcome
  rw [eventually_loop (listTurn_rising data depth), listTurn_outcome]
  split
  · cases outcome data s.2 (depth + 1) <;> rfl
  · rfl

theorem dictTurn_outcome (data : Bytes) (depth : Nat) (s : Pairs × Nat) :
    (eventually .unfinished fun n => dictTurn (parse data n) data depth s) =
      parseString data s.2 >>= fun k =>
        match k.1 with
        | .str key => outcome data k.2 (depth + 1) >>= fun r =>
            pure (Keyed.emplace Prod.fst (key, r.1) s.1, r.2)
        | _ => throwing (.invalidArgument "Dict key must be a string") := by
  unfold dictTurn outcome
  cases parseString data s.2 with
  | error e => exact eventually_const _
  | ok k =>
    obtain ⟨keyVal, pos⟩ := k
    cases keyVal with
    | str key =>
      refine (eventually_bind (parse_rising data pos (depth + 1)) fun _ => Rising.const _).trans ?_
      simp only [eventually_const]
      rfl
    | _ => exact eventually_const _

theorem dictOutcome_eq (data : Bytes) (depth : Nat) (s : Pairs × Nat) :
    dictOutcome data depth s =
      if moreItems data s.2 then
        parseString data s.2 >>= fun k =>
          match k.1 with
          | .str key => outcome data k.2 (depth + 1) >>= fun r =>
              dictOutcome data depth (Keyed.emplace Prod.fst (key, r.1) s.1, r.2)
          | _ => throwing (.invalidArgument "Dict key must be a string")
      else .ok s := by
  unfold dictOutcome
  rw [eventually_loop (dictTurn_rising data depth), dictTurn_outcome]
  split
  · cases parseString data s.2 with
    | error e => rfl
    | ok k =>
      obtain ⟨keyVal, pos⟩ := k
      cases keyVal with
      | str key =>
        simp only [bind, Except.bind]
        cases outcome data pos (depth + 1) <;> rfl
      | _ => rfl
  · rfl

/-- The first character of a value decides what is parsed. -/
theorem outcome_eq (data : Bytes) (pos depth : Nat) :
    outcome data pos depth =
      if data.isEmpty then throwing (.invalidArgument "Empty data")
      else if depth > maxRecursionDepth then throwing depthLimitExceeded
      else (do
        let firstChar ← charAt data pos
        if firstChar = intStart then parseInt data pos
        else if isDigit firstChar then parseString data pos
        else if firstChar = listStart then do
          let pos ← expectChar data pos listId
          let s ← listOutcome data depth ([], pos)
          let pos ← expectChar data s.2 endMark
          pure (.list s.1, pos)
        else if firstChar = dictStart then do
          let pos ← expectChar data pos dictId
          let s ← dictOutcome data depth ([], pos)
          let pos ← expectChar data s.2 endMark
          pure (.dict s.1, pos)
        else throwing (.invalidArgument "Invalid bencode data")) := by
  rw [outcome, ← eventually_succ (parse_rising data pos depth)]
  simp only [parse]
  split
  · exact eventually_const _
  · split
    · exact eventually_const _
    · cases charAt data pos with
      | error e => exact eventually_const _
      | ok c =>
        simp only [bind, Except.bind]
        split
        · exact eventually_const _
        · split
          · exact eventually_const _
          · split
            · unfold parseList
              cases expectChar data pos listId with
              | error e => exact eventually_const _
              | ok p =>
                refine (eventually_bind (loop_rising (listTurn_rising data depth) ([], p))
                  fun _ => Rising.const _).trans ?_
                simp only [eventually_const]
                rfl
            · split
              · unfold parseDict
                cases expectChar data pos dictId with
                | error e => exact eventually_const _
                | ok p =>
                  refine (eventually_bind (loop_rising (dictTurn_rising data depth) ([], p))
                    fun _ => Rising.const _).trans ?_
                  simp only [eventually_const]
                  rfl
              · exact eventually_const _

end Detail

/-! ## The whole parser -/

/-- What parsing a payload comes to. -/
noncomputable def outcome (data : Bytes) : Except Stop Value :=
  eventually .unfinished fun n => parse n data

theorem parse_rising (data : Bytes) : Rising .unfinished fun n => parse n data :=
  (Detail.parse_rising data 0 0).bind fun _ => Rising.const _

theorem outcome_eq (data : Bytes) :
    outcome data = Detail.outcome data 0 0 >>= fun r => pure r.1 := by
  unfold outcome parse
  rw [eventually_bind (Detail.parse_rising data 0 0) fun _ => Rising.const _]
  simp only [eventually_const]
  rfl

/-- Parsing returns this value. -/
def Returns (data : Bytes) (v : Value) : Prop := ∃ fuel, parse fuel data = .ok v

/-- Parsing throws this exception. -/
def Throws (data : Bytes) (e : StdException) : Prop :=
  ∃ fuel, parse fuel data = .error (.throws e)

/-- Parsing reads what is not there. -/
def Faults (data : Bytes) (f : Fault) : Prop :=
  ∃ fuel, parse fuel data = .error (.fault f)

theorem returns_iff {data : Bytes} {v : Value} : Returns data v ↔ outcome data = .ok v :=
  ((parse_rising data).eventually_eq_iff (by simp)).symm

theorem throws_iff {data : Bytes} {e : StdException} :
    Throws data e ↔ outcome data = .error (.throws e) :=
  ((parse_rising data).eventually_eq_iff (by simp)).symm

theorem faults_iff {data : Bytes} {f : Fault} :
    Faults data f ↔ Detail.outcome data 0 0 = .error (.fault f) := by
  have hwhole : Faults data f ↔ outcome data = .error (.fault f) :=
    ((parse_rising data).eventually_eq_iff (by simp)).symm
  rw [hwhole, outcome_eq]
  cases Detail.outcome data 0 0 <;> simp [bind, Except.bind, pure, Except.pure]

end BitTorrentClient.Bencode
