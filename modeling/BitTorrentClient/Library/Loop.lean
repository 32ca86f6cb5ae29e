/-
  Library/Loop.lean --- bounded loops, and what they do without the bound.

  A computation that may not end is run with fuel, and reports the error
  `unfinished` when the fuel is used up.  More fuel changes nothing but that
  report: such a family is `Rising`.  `eventually` is the result of a rising
  family with as much fuel as it takes, or `unfinished` when no amount is enough.
  It commutes with sequencing and with loops, so a recursive program satisfies
  its own equations, without fuel, in terms of `eventually`.

  For `while` loops there are rules: what a loop that returned did, and how it can fail,
  by what its turns do; a loop whose turns go down a well-founded relation ends, and a
  loop that stays inside a set from which every turn returns to the set does not.
-/
import Mathlib.Data.Fintype.Defs
import Mathlib.Logic.Relation
import Mathlib.Order.WellFounded
import Mathlib.Data.Fintype.EquivFin

set_option autoImplicit false

namespace BitTorrentClient.Library

variable {ε α β σ : Type} {unfinished : ε}

/-- The result is not there yet, or it is this one. -/
def Below (unfinished : ε) (x y : Except ε α) : Prop := x = .error unfinished ∨ x = y

/-- More fuel only turns `unfinished` into a result. -/
def Rising (unfinished : ε) (f : Nat → Except ε α) : Prop :=
  ∀ m n, m ≤ n → Below unfinished (f m) (f n)

theorem Below.refl (x : Except ε α) : Below unfinished x x := Or.inr rfl

theorem Below.trans {x y z : Except ε α} (h : Below unfinished x y)
    (h' : Below unfinished y z) : Below unfinished x z := by
  rcases h with rfl | rfl
  · exact Or.inl rfl
  · exact h'

theorem Below.bind {x y : Except ε α} {f g : α → Except ε β} (h : Below unfinished x y)
    (hfg : ∀ a, Below unfinished (f a) (g a)) : Below unfinished (x >>= f) (y >>= g) := by
  rcases h with rfl | rfl
  · exact Or.inl rfl
  · cases x with
    | error e => exact Or.inr rfl
    | ok a => exact hfg a

theorem Rising.const (x : Except ε α) : Rising unfinished fun _ => x :=
  fun _ _ _ => Below.refl x

theorem Rising.bind {f : Nat → Except ε α} {g : α → Nat → Except ε β}
    (hf : Rising unfinished f) (hg : ∀ a, Rising unfinished (g a)) :
    Rising unfinished fun n => f n >>= fun a => g a n :=
  fun m n hmn => (hf m n hmn).bind fun a => hg a m n hmn

theorem Rising.succ {f : Nat → Except ε α} (hf : Rising unfinished f) :
    Rising unfinished fun n => f (n + 1) :=
  fun m n hmn => hf (m + 1) (n + 1) (Nat.succ_le_succ hmn)

/-! ## The eventual result -/

open Classical in
/-- The result with enough fuel. -/
noncomputable def eventually (unfinished : ε) (f : Nat → Except ε α) : Except ε α :=
  if h : ∃ n, f n ≠ .error unfinished then f h.choose else .error unfinished

theorem Rising.eventually_eq {f : Nat → Except ε α} (hf : Rising unfinished f) {n : Nat}
    (hn : f n ≠ .error unfinished) : eventually unfinished f = f n := by
  have hex : ∃ n, f n ≠ .error unfinished := ⟨n, hn⟩
  rw [eventually, dif_pos hex]
  have hchoose := hex.choose_spec
  rcases Nat.le_total hex.choose n with hle | hle
  · rcases hf _ _ hle with hun | heq
    · exact absurd hun hchoose
    · exact heq
  · rcases hf _ _ hle with hun | heq
    · exact absurd hun hn
    · exact heq.symm

/-- Any amount of fuel gives the eventual result or none. -/
theorem Rising.below_eventually {f : Nat → Except ε α} (hf : Rising unfinished f) (n : Nat) :
    Below unfinished (f n) (eventually unfinished f) := by
  by_cases hn : f n = .error unfinished
  · exact Or.inl hn
  · exact Or.inr (hf.eventually_eq hn).symm

theorem Rising.eventually_eq_iff {f : Nat → Except ε α} (hf : Rising unfinished f)
    {r : Except ε α} (hr : r ≠ .error unfinished) :
    eventually unfinished f = r ↔ ∃ n, f n = r := by
  constructor
  · intro h
    by_cases hex : ∃ n, f n ≠ .error unfinished
    · obtain ⟨n, hn⟩ := hex
      exact ⟨n, (hf.eventually_eq hn).symm.trans h⟩
    · rw [eventually, dif_neg hex] at h
      exact absurd h.symm hr
  · rintro ⟨n, rfl⟩
    exact hf.eventually_eq hr

theorem eventually_eq_unfinished_iff {f : Nat → Except ε α} (hf : Rising unfinished f) :
    eventually unfinished f = .error unfinished ↔ ∀ n, f n = .error unfinished := by
  constructor
  · intro h n
    rcases hf.below_eventually n with hun | heq
    · exact hun
    · rw [heq, h]
  · intro h
    rw [eventually, dif_neg]
    rintro ⟨n, hn⟩
    exact hn (h n)

/-- Two families that agree with enough fuel have one eventual result. -/
theorem eventually_congr {f g : Nat → Except ε α} (hf : Rising unfinished f)
    (hg : Rising unfinished g) (hfg : ∀ n, ∃ k, Below unfinished (f n) (g k))
    (hgf : ∀ n, ∃ k, Below unfinished (g n) (f k)) :
    eventually unfinished f = eventually unfinished g := by
  by_cases h : eventually unfinished f = .error unfinished
  · rw [h]
    refine ((eventually_eq_unfinished_iff hg).mpr fun n => ?_).symm
    obtain ⟨k, hun | heq⟩ := hgf n
    · exact hun
    · rw [heq, (eventually_eq_unfinished_iff hf).mp h k]
  · obtain ⟨n, hn⟩ := (hf.eventually_eq_iff h).mp rfl
    obtain ⟨k, hun | heq⟩ := hfg n
    · exact absurd (hn.symm.trans hun) h
    · exact ((hg.eventually_eq_iff h).mpr ⟨k, heq.symm.trans hn⟩).symm

theorem eventually_const (x : Except ε α) : eventually unfinished (fun _ => x) = x := by
  by_cases h : x = .error unfinished
  · rw [h]
    exact (eventually_eq_unfinished_iff (Rising.const _)).mpr fun _ => rfl
  · exact (Rising.const x).eventually_eq (n := 0) h

theorem eventually_succ {f : Nat → Except ε α} (hf : Rising unfinished f) :
    eventually unfinished (fun n => f (n + 1)) = eventually unfinished f :=
  eventually_congr hf.succ hf (fun n => ⟨n + 1, Below.refl _⟩)
    fun n => ⟨n, hf n (n + 1) (Nat.le_succ n)⟩

/-- Sequencing. -/
theorem eventually_bind {f : Nat → Except ε α} {g : α → Nat → Except ε β}
    (hf : Rising unfinished f) (hg : ∀ a, Rising unfinished (g a)) :
    eventually unfinished (fun n => f n >>= fun a => g a n) =
      eventually unfinished f >>= fun a => eventually unfinished (g a) := by
  have hfg := hf.bind hg
  cases hr : eventually unfinished f with
  | error e =>
    by_cases he : (.error e : Except ε α) = .error unfinished
    · obtain rfl := Except.error.inj he
      refine (eventually_eq_unfinished_iff hfg).mpr fun n => ?_
      rw [(eventually_eq_unfinished_iff hf).mp hr n]
      rfl
    · obtain ⟨n, hn⟩ := (hf.eventually_eq_iff he).mp hr
      refine (hfg.eventually_eq_iff fun h => he (by rw [Except.error.inj h])).mpr ⟨n, ?_⟩
      rw [hn]
      rfl
  | ok a =>
    obtain ⟨n, hn⟩ := (hf.eventually_eq_iff (by simp)).mp hr
    -- from `n` on the first part is done
    have hdone : ∀ k, f (n + k) = .ok a := by
      intro k
      rcases hf n (n + k) (Nat.le_add_right n k) with hun | heq
      · exact absurd (hn.symm.trans hun) (by simp)
      · rw [← heq, hn]
    refine eventually_congr hfg (hg a) (fun k => ⟨k, ?_⟩) fun k => ⟨n + k, ?_⟩
    · rcases hf.below_eventually k with hun | heq
      · exact Or.inl (by rw [hun]; rfl)
      · rw [heq, hr]
        exact Below.refl _
    · rw [hdone k]
      exact hg a k (n + k) (Nat.le_add_left k n)

/-! ## Loops -/

/-- A loop that may take so many turns. -/
def whileLoop (unfinished : ε) (cond : σ → Bool) (body : σ → Except ε σ) :
    Nat → σ → Except ε σ
  | 0, s => if cond s then .error unfinished else .ok s
  | turns + 1, s => if cond s then body s >>= whileLoop unfinished cond body turns else .ok s

section WhileLoop

variable {cond : σ → Bool} {body : Nat → σ → Except ε σ}

/-- The loop and its body run on one amount of fuel. -/
def loop (unfinished : ε) (cond : σ → Bool) (body : Nat → σ → Except ε σ) (s : σ) (n : Nat) :
    Except ε σ :=
  whileLoop unfinished cond (body n) n s

theorem whileLoop_below {b b' : σ → Except ε σ} (hb : ∀ s, Below unfinished (b s) (b' s)) :
    ∀ m n, m ≤ n → ∀ s,
      Below unfinished (whileLoop unfinished cond b m s) (whileLoop unfinished cond b' n s) := by
  intro m
  induction m with
  | zero =>
    intro n _ s
    cases hc : cond s with
    | true => exact Or.inl (by simp [whileLoop, hc])
    | false => exact Or.inr (by cases n <;> simp [whileLoop, hc])
  | succ m ih =>
    intro n hmn s
    cases n with
    | zero => exact absurd hmn (Nat.not_succ_le_zero m)
    | succ n =>
      cases hc : cond s with
      | true =>
        simp only [whileLoop, hc, if_true]
        exact (hb s).bind fun s' => ih n (Nat.le_of_succ_le_succ hmn) s'
      | false => exact Or.inr (by simp [whileLoop, hc])

/-- A loop that returned did nothing, or one turn and then the rest. -/
theorem whileLoop_eq_ok {body : σ → Except ε σ} {P : σ → σ → Prop}
    (hstop : ∀ s, cond s = false → P s s)
    (hturn : ∀ s s₁ s', cond s = true → body s = .ok s₁ → P s₁ s' → P s s') {turns : Nat}
    {s s' : σ} (h : whileLoop unfinished cond body turns s = .ok s') : P s s' := by
  induction turns generalizing s with
  | zero =>
    cases hc : cond s with
    | true => simp [whileLoop, hc] at h
    | false =>
      obtain rfl : s = s' := by simpa [whileLoop, hc] using h
      exact hstop s hc
  | succ turns ih =>
    cases hc : cond s with
    | true =>
      rw [whileLoop, if_pos hc] at h
      cases hbody : body s with
      | error e =>
        rw [hbody] at h
        cases h
      | ok s₁ =>
        rw [hbody] at h
        exact hturn s s₁ s' hc hbody (ih h)
    | false =>
      obtain rfl : s = s' := by simpa [whileLoop, hc] using h
      exact hstop s hc

/-- A loop whose turns keep an invariant fails in no way that none of them does. -/
theorem whileLoop_ne_error {body : σ → Except ε σ} {I : σ → Prop} {e : ε} (he : e ≠ unfinished)
    (hbody : ∀ s, I s → cond s = true → body s ≠ .error e)
    (hturn : ∀ s s₁, I s → cond s = true → body s = .ok s₁ → I s₁) {s : σ} (hs : I s)
    (turns : Nat) : whileLoop unfinished cond body turns s ≠ .error e := by
  induction turns generalizing s with
  | zero =>
    cases hc : cond s with
    | true => simpa [whileLoop, hc] using he.symm
    | false => simp [whileLoop, hc]
  | succ turns ih =>
    cases hc : cond s with
    | true =>
      rw [whileLoop, if_pos hc]
      cases hr : body s with
      | error e' =>
        intro h
        exact hbody s hs hc (hr.trans h)
      | ok s₁ => exact ih (hturn s s₁ hs hc hr)
    | false => simp [whileLoop, hc]

theorem loop_rising (hb : ∀ s, Rising unfinished fun n => body n s) (s : σ) :
    Rising unfinished (loop unfinished cond body s) :=
  fun m n hmn => whileLoop_below (fun s => hb s m n hmn) m n hmn s

/-- A loop unfolds. -/
theorem eventually_loop (hb : ∀ s, Rising unfinished fun n => body n s) (s : σ) :
    eventually unfinished (loop unfinished cond body s) =
      if cond s then
        eventually unfinished (fun n => body n s) >>= fun s' =>
          eventually unfinished (loop unfinished cond body s')
      else .ok s := by
  cases hc : cond s with
  | false =>
    have hdone : loop unfinished cond body s = fun _ => .ok s := by
      funext n
      cases n <;> simp [loop, whileLoop, hc]
    rw [hdone, eventually_const]
    rfl
  | true =>
    rw [if_pos rfl, ← eventually_bind (hb s) (loop_rising hb)]
    refine eventually_congr (loop_rising hb s) ((hb s).bind (loop_rising hb)) ?_ ?_
    · intro n
      cases n with
      | zero => exact ⟨0, Or.inl (by simp [loop, whileLoop, hc])⟩
      | succ n =>
        refine ⟨n + 1, ?_⟩
        simp only [loop, whileLoop, hc, if_true]
        exact (Below.refl _).bind fun s' =>
          whileLoop_below (fun _ => Below.refl _) n (n + 1) (Nat.le_succ n) s'
    · intro n
      refine ⟨n + 1, ?_⟩
      have hturn : loop unfinished cond body s (n + 1) =
          body (n + 1) s >>= whileLoop unfinished cond (body (n + 1)) n := by
        simp only [loop, whileLoop, hc, if_true]
      rw [hturn]
      exact (hb s n (n + 1) (Nat.le_succ n)).bind fun s' =>
        whileLoop_below (fun r => hb r n (n + 1) (Nat.le_succ n)) n n (Nat.le_refl n) s'

/-- One turn of the loop leads from `s` to `s'`. -/
def Turn (unfinished : ε) (cond : σ → Bool) (body : Nat → σ → Except ε σ) (s s' : σ) : Prop :=
  cond s = true ∧ eventually unfinished (fun n => body n s) = .ok s'

/-- A loop that stays inside a set ends when its turns there go down a well-founded
relation and each of them ends. -/
theorem loop_ends (hb : ∀ s, Rising unfinished fun n => body n s) {I : σ → Prop}
    (hturn : ∀ s s', I s → Turn unfinished cond body s s' → I s')
    (hbody : ∀ s, I s → cond s = true →
      eventually unfinished (fun n => body n s) ≠ .error unfinished)
    {s : σ} (hacc : Acc (fun s' s => I s ∧ Turn unfinished cond body s s') s) (hs : I s) :
    eventually unfinished (loop unfinished cond body s) ≠ .error unfinished := by
  induction hacc with
  | intro s _ ih =>
    rw [eventually_loop hb]
    cases hc : cond s with
    | false => simp
    | true =>
      rw [if_pos rfl]
      cases hr : eventually unfinished (fun n => body n s) with
      | error e =>
        intro h
        exact hbody s hs hc (hr.trans h)
      | ok s' => exact ih s' ⟨hs, hc, hr⟩ (hturn s s' hs ⟨hc, hr⟩)

/-- A loop does not end when it keeps returning to a set. -/
theorem loop_unfinished (hb : ∀ s, Rising unfinished fun n => body n s) {I : σ → Prop}
    (hturn : ∀ s, I s → ∃ s', Turn unfinished cond body s s' ∧ I s') {s : σ} (hs : I s) :
    eventually unfinished (loop unfinished cond body s) = .error unfinished := by
  refine (eventually_eq_unfinished_iff (loop_rising hb s)).mpr fun n => ?_
  have hrun : ∀ turns s, I s →
      whileLoop unfinished cond (body n) turns s = .error unfinished := by
    intro turns
    induction turns with
    | zero =>
      intro s hs
      obtain ⟨_, ⟨hc, _⟩, _⟩ := hturn s hs
      simp [whileLoop, hc]
    | succ turns ih =>
      intro s hs
      obtain ⟨s', ⟨hc, hr⟩, hs'⟩ := hturn s hs
      rw [whileLoop, if_pos hc]
      rcases (hb s).below_eventually n with hun | heq
      · rw [hun]
        rfl
      · rw [heq, hr]
        exact ih s' hs'
  exact hrun n s hs

end WhileLoop

/-! ## Acyclic relations on bounded numbers -/

/-- A relation without cycles that leaves only numbers below a bound goes down. -/
theorem acc_of_acyclic {R : Nat → Nat → Prop} {bound : Nat} (hbound : ∀ p q, R p q → p < bound)
    (hcycle : ∀ p, ¬ Relation.TransGen R p p) (p : Nat) : Acc (fun q p => R p q) p := by
  let down : Fin bound → Fin bound → Prop := fun q p => Relation.TransGen R p q
  have htrans : IsTrans (Fin bound) down := ⟨fun _ _ _ hba hcb => hcb.trans hba⟩
  have hirrefl : Std.Irrefl down := ⟨fun p => hcycle p⟩
  have hwf : WellFounded down := Finite.wellFounded_of_trans_of_irrefl down
  have hout : ∀ p, bound ≤ p → Acc (fun q p => R p q) p := by
    intro p hp
    exact Acc.intro p fun q hq => absurd (hbound p q hq) (Nat.not_lt.mpr hp)
  have hin : ∀ p : Fin bound, Acc (fun q p => R p q) p.val := by
    intro p
    induction p using hwf.induction with
    | _ p ih =>
      refine Acc.intro _ fun q hq => ?_
      by_cases hlt : q < bound
      · exact ih ⟨q, hlt⟩ (Relation.TransGen.single hq)
      · exact hout q (Nat.le_of_not_lt hlt)
  by_cases hlt : p < bound
  · exact hin ⟨p, hlt⟩
  · exact hout p (Nat.le_of_not_lt hlt)

end BitTorrentClient.Library
