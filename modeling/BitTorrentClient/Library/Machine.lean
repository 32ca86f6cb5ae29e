/-
  Library/Machine.lean --- labelled transition systems and their finite runs.

  A machine is a set of initial states and a labelled step relation.  A run is
  recorded newest step first, so that an induction on a run adds one step at its
  end: a property of the history is then a recursion over the recorded list.

  Three rules are provided.  `Run.invariant` is the plain one: a predicate that
  holds initially and survives every step holds in every state a run reaches.
  `Run.guarded_invariant` is the same rule for runs whose steps all meet a
  condition on the state before the step and on its label.  `Run.always` is for
  predicates and conditions that also read the steps made so far.

  `CanReach` is the opposite of an invariant: what some continuation of a run comes
  to.

  `project` is what a part of the system sees of a history, when every step is one
  of the part or leaves it alone.

  Nothing here mentions a particular system.
-/
import Mathlib.Data.List.Basic
import Mathlib.Order.RelClasses

set_option autoImplicit false

namespace BitTorrentClient.Library

/-- One recorded step of a run. -/
structure Transition (σ ι : Type) where
  /-- The state the step left. -/
  source : σ
  /-- What the step was. -/
  label : ι
  /-- The state the step reached. -/
  target : σ

/-- A labelled transition system. -/
structure Machine (σ ι : Type) where
  /-- The states a run may start in. -/
  init : σ → Prop
  /-- Where the system may move from a state, doing what the label says. -/
  step : σ → ι → σ → Prop

namespace Machine

variable {σ ι : Type} {M : Machine σ ι}

/-- Some run of `M` ends in the state, with the given steps, newest first. -/
inductive Run (M : Machine σ ι) : List (Transition σ ι) → σ → Prop
  /-- A run of no steps. -/
  | start {s : σ} : M.init s → Run M [] s
  /-- A run with one more step at its end. -/
  | snoc {history : List (Transition σ ι)} {s s' : σ} {l : ι} :
      Run M history s → M.step s l s' → Run M (⟨s, l, s'⟩ :: history) s'

/-- Every recorded step meets the condition `G` on its source and label. -/
def Guarded (G : σ → ι → Prop) (history : List (Transition σ ι)) : Prop :=
  ∀ t ∈ history, G t.source t.label

theorem Guarded.tail {G : σ → ι → Prop} {t : Transition σ ι}
    {history : List (Transition σ ι)} (h : Guarded G (t :: history)) :
    Guarded G history :=
  fun u hu => h u (List.mem_cons_of_mem t hu)

/-- The rule for runs whose steps all meet a condition. -/
theorem Run.guarded_invariant {I : σ → Prop} {G : σ → ι → Prop}
    (hinit : ∀ s, M.init s → I s)
    (hstep : ∀ s l s', I s → G s l → M.step s l s' → I s')
    {history : List (Transition σ ι)} {s : σ} (hrun : M.Run history s)
    (hguard : Guarded G history) : I s := by
  induction hrun with
  | start hs => exact hinit _ hs
  | snoc _ hlast ih =>
    exact hstep _ _ _ (ih hguard.tail) (hguard _ List.mem_cons_self) hlast

/-- The invariant rule. -/
theorem Run.invariant {I : σ → Prop} (hinit : ∀ s, M.init s → I s)
    (hstep : ∀ s l s', I s → M.step s l s' → I s')
    {history : List (Transition σ ι)} {s : σ} (hrun : M.Run history s) : I s :=
  hrun.guarded_invariant (G := fun _ _ => True) hinit
    (fun s l s' hI _ => hstep s l s' hI) (fun _ _ => trivial)

/-- Every recorded step is a step of the machine, taken from a state that an
earlier part of the run reaches. -/
theorem Run.of_mem {history : List (Transition σ ι)} {s : σ} {t : Transition σ ι}
    (hrun : M.Run history s) (ht : t ∈ history) :
    M.step t.source t.label t.target ∧
      ∃ earlier, M.Run earlier t.source ∧ earlier <:+ history := by
  induction hrun with
  | start _ => simp at ht
  | @snoc history s s' l hsofar hlast ih =>
    rcases List.mem_cons.mp ht with rfl | ht
    · exact ⟨hlast, history, hsofar, List.suffix_cons _ _⟩
    · obtain ⟨hstep, earlier, hearlier, hsuffix⟩ := ih ht
      exact ⟨hstep, earlier, hearlier, hsuffix.trans (List.suffix_cons _ _)⟩

/-! ## Conditions on the history -/

/-- Every recorded step meets the condition `G` on the steps before it and on the
step itself. -/
def Always (G : List (Transition σ ι) → Transition σ ι → Prop)
    (history : List (Transition σ ι)) : Prop :=
  ∀ t older, t :: older <:+ history → G older t

theorem Always.head {G : List (Transition σ ι) → Transition σ ι → Prop}
    {t : Transition σ ι} {history : List (Transition σ ι)} (h : Always G (t :: history)) :
    G history t :=
  h t history (List.suffix_refl _)

theorem Always.tail {G : List (Transition σ ι) → Transition σ ι → Prop}
    {t : Transition σ ι} {history : List (Transition σ ι)} (h : Always G (t :: history)) :
    Always G history :=
  fun u older hsuffix => h u older (hsuffix.trans (List.suffix_cons _ _))

theorem Always.of_suffix {G : List (Transition σ ι) → Transition σ ι → Prop}
    {older history : List (Transition σ ι)} (h : Always G history) (hsuffix : older <:+ history) :
    Always G older :=
  fun t earlier hearlier => h t earlier (hearlier.trans hsuffix)

/-- What comes before a recorded step is a run to the state it left. -/
theorem Run.of_suffix {history older : List (Transition σ ι)} {s : σ} {t : Transition σ ι}
    (hrun : M.Run history s) (hsuffix : t :: older <:+ history) :
    M.Run older t.source ∧ M.step t.source t.label t.target := by
  induction hrun with
  | start _ => simp at hsuffix
  | snoc hsofar hlast ih =>
    rcases List.suffix_cons_iff.mp hsuffix with heq | hsuffix
    · obtain ⟨rfl, rfl⟩ := List.cons.inj heq
      exact ⟨hsofar, hlast⟩
    · exact ih hsuffix

theorem always_nil (G : List (Transition σ ι) → Transition σ ι → Prop) : Always G [] := by
  intro t older hsuffix
  simp at hsuffix

theorem always_cons {G : List (Transition σ ι) → Transition σ ι → Prop}
    {t : Transition σ ι} {history : List (Transition σ ι)} :
    Always G (t :: history) ↔ G history t ∧ Always G history := by
  refine ⟨fun h => ⟨h.head, h.tail⟩, fun ⟨hhead, htail⟩ u older hsuffix => ?_⟩
  rcases List.suffix_cons_iff.mp hsuffix with heq | hsuffix
  · obtain ⟨rfl, rfl⟩ := List.cons.inj heq
    exact hhead
  · exact htail u older hsuffix

/-- The rule for predicates of the state and of the steps that led to it, in runs
whose steps all meet a condition of the same kind. -/
theorem Run.always {I : List (Transition σ ι) → σ → Prop}
    {G : List (Transition σ ι) → Transition σ ι → Prop}
    (hinit : ∀ s, M.init s → I [] s)
    (hstep : ∀ older s l s', M.Run older s → I older s → G older ⟨s, l, s'⟩ →
      M.step s l s' → I (⟨s, l, s'⟩ :: older) s')
    {history : List (Transition σ ι)} {s : σ} (hrun : M.Run history s)
    (hguard : Always G history) : I history s := by
  induction hrun with
  | start hs => exact hinit _ hs
  | snoc hsofar hlast ih =>
    exact hstep _ _ _ _ hsofar (ih hguard.tail) hguard.head hlast

/-- What the condition and the invariant together say of one step holds of every
step of the run. -/
theorem Run.always_of_invariant {I : List (Transition σ ι) → σ → Prop}
    {G Q : List (Transition σ ι) → Transition σ ι → Prop}
    (hinit : ∀ s, M.init s → I [] s)
    (hstep : ∀ older s l s', M.Run older s → I older s → G older ⟨s, l, s'⟩ →
      M.step s l s' → I (⟨s, l, s'⟩ :: older) s')
    (hgood : ∀ older s l s', M.Run older s → I older s → G older ⟨s, l, s'⟩ →
      M.step s l s' → Q older ⟨s, l, s'⟩)
    {history : List (Transition σ ι)} {s : σ} (hrun : M.Run history s)
    (hguard : Always G history) : Always Q history := by
  induction hrun with
  | start _ => exact always_nil Q
  | snoc hsofar hlast ih =>
    have hinvariant := hsofar.always hinit hstep hguard.tail
    exact always_cons.mpr
      ⟨hgood _ _ _ _ hsofar hinvariant hguard.head hlast, ih hguard.tail⟩

/-- Conditions that agree on every step of the machine hold along the same runs. -/
theorem Run.always_congr {G G' : List (Transition σ ι) → Transition σ ι → Prop}
    {history : List (Transition σ ι)} {s : σ} (hrun : M.Run history s)
    (h : ∀ older t, M.Run older t.source → M.step t.source t.label t.target →
      (G older t ↔ G' older t)) : Always G history ↔ Always G' history := by
  refine forall_congr' fun t => forall_congr' fun older => forall_congr' fun hsuffix => ?_
  obtain ⟨hsofar, hstep⟩ := hrun.of_suffix hsuffix
  exact h older t hsofar hstep

/-- What holds initially and after every step holds in the state a run reaches. -/
theorem Run.reached {P : List (Transition σ ι) → σ → Prop} (hinit : ∀ s, M.init s → P [] s)
    {history : List (Transition σ ι)} {s : σ} (hrun : M.Run history s)
    (h : Always (fun older t => P (t :: older) t.target) history) : P history s := by
  cases hrun with
  | start hs => exact hinit s hs
  | snoc _ _ => exact h.head

/-! ## Runs that end -/

/-- No run of the machine goes on forever. -/
def Terminates (M : Machine σ ι) : Prop :=
  ∀ s, M.init s → Acc (fun s' s => ∃ l, M.step s l s') s

/-- The machine cannot move. -/
def Stuck (M : Machine σ ι) (s : σ) : Prop := ∀ l s', ¬ M.step s l s'

/-- The rule for termination: a rank that every step makes smaller, in the states that an
invariant allows. -/
theorem terminates_of_rank {β : Type} [LT β] [WellFoundedLT β] {I : σ → Prop} (rank : σ → β)
    (hinit : ∀ s, M.init s → I s) (hstep : ∀ s l s', I s → M.step s l s' → I s')
    (hrank : ∀ s l s', I s → M.step s l s' → rank s' < rank s) : M.Terminates := by
  have hends : ∀ r s, rank s = r → I s → Acc (fun s' s => ∃ l, M.step s l s') s := by
    intro r
    induction r using WellFoundedLT.induction with
    | ind r ih =>
      rintro s rfl hs
      refine .intro s fun s' ⟨l, hmove⟩ => ?_
      exact ih (rank s') (hrank s l s' hs hmove) s' rfl (hstep s l s' hs hmove)
  exact fun s hs => hends (rank s) s rfl (hinit s hs)

/-- The rule for the number of steps: steps that are not counted make a rank smaller, and
those that are counted bring it back to the bound at most.  It holds of every stretch of a
run. -/
theorem Run.length_le_of_rank (rank : σ → Nat) (counted : ι → Bool) {bound : Nat}
    (hinit : ∀ s, M.init s → rank s ≤ bound)
    (hfree : ∀ older s l s', M.Run older s → M.step s l s' → counted l = false →
      rank s' < rank s)
    (hcounted : ∀ older s l s', M.Run older s → M.step s l s' → counted l = true →
      rank s' ≤ bound)
    {later earlier : List (Transition σ ι)} {s : σ} (hrun : M.Run (later ++ earlier) s) :
    later.length + rank s ≤ (bound + 1) * later.countP (fun t => counted t.label) + bound := by
  induction later generalizing s with
  | nil =>
    have hrank : ∀ {history s}, M.Run history s → rank s ≤ bound := by
      intro history s hrun
      induction hrun with
      | start hs => exact hinit _ hs
      | @snoc history s s' l hsofar hlast ih =>
        cases hl : counted l with
        | false => exact Nat.le_of_lt (Nat.lt_of_lt_of_le (hfree _ _ _ _ hsofar hlast hl) ih)
        | true => exact hcounted _ _ _ _ hsofar hlast hl
    simpa using hrank hrun
  | cons t later ih =>
    cases hrun with
    | @snoc _ s₀ _ l hsofar hlast =>
      have hso := ih hsofar
      rw [List.length_cons, List.countP_cons]
      cases hl : counted l with
      | false =>
        have hless := hfree _ _ _ _ hsofar hlast hl
        rw [if_neg Bool.false_ne_true, Nat.mul_add, Nat.mul_zero]
        omega
      | true =>
        have hback := hcounted _ _ _ _ hsofar hlast hl
        rw [if_pos rfl, Nat.mul_add, Nat.mul_one]
        omega

/-! ## Runs from a given state -/

/-- The same machine, started in the state `s`. -/
def startingAt (M : Machine σ ι) (s : σ) : Machine σ ι where
  init := fun s' => s' = s
  step := M.step

/-- A run goes on from where an earlier one ended. -/
theorem Run.append {older newer : List (Transition σ ι)} {s s' : σ} (hrun : M.Run older s)
    (hrest : (M.startingAt s).Run newer s') : M.Run (newer ++ older) s' := by
  induction hrest with
  | start hs =>
    rw [show _ = s from hs]
    exact hrun
  | snoc _ hlast ih => exact ih.snoc hlast

/-! ## What can still be reached -/

/-- The run with this history, which ends in `s`, can go on to a state with `P`, by steps
that all meet `G`. -/
def CanReach (M : Machine σ ι) (G : σ → ι → Prop) (P : List (Transition σ ι) → σ → Prop)
    (history : List (Transition σ ι)) (s : σ) : Prop :=
  ∃ more s', (M.startingAt s).Run more s' ∧ Guarded G more ∧ P (more ++ history) s'

section Reaching

variable {G : σ → ι → Prop} {P Q : List (Transition σ ι) → σ → Prop}
  {history : List (Transition σ ι)} {s s' : σ} {l : ι}

theorem CanReach.here (h : P history s) : M.CanReach G P history s :=
  ⟨[], s, .start rfl, fun _ ht => absurd ht List.not_mem_nil, h⟩

/-- What is reached from where a run went on to is reached from where it was. -/
theorem CanReach.trans (h : M.CanReach G P history s)
    (hrest : ∀ history' s', P history' s' → M.CanReach G Q history' s') :
    M.CanReach G Q history s := by
  obtain ⟨older, s₁, hrun, hguard, hp⟩ := h
  obtain ⟨newer, s₂, hrun', hguard', hq⟩ := hrest _ _ hp
  refine ⟨newer ++ older, s₂, hrun.append hrun', fun t ht => ?_, ?_⟩
  · rcases List.mem_append.mp ht with hnew | hold
    · exact hguard' t hnew
    · exact hguard t hold
  · rw [List.append_assoc]
    exact hq

theorem CanReach.step (hstep : M.step s l s') (hguard : G s l)
    (hrest : M.CanReach G P (⟨s, l, s'⟩ :: history) s') : M.CanReach G P history s := by
  have hfirst : M.CanReach G (fun history' t => history' = ⟨s, l, s'⟩ :: history ∧ t = s')
      history s := by
    refine ⟨[⟨s, l, s'⟩], s', Run.snoc (.start rfl) hstep, fun t ht => ?_, rfl, rfl⟩
    rw [List.mem_singleton.mp ht]
    exact hguard
  refine hfirst.trans fun _ _ hreached => ?_
  rw [hreached.1, hreached.2]
  exact hrest

theorem CanReach.mono (h : M.CanReach G P history s) (himp : ∀ history' s', P history' s' →
    Q history' s') : M.CanReach G Q history s :=
  h.trans fun history' s' hp => .here (himp history' s' hp)

/-- The rule for what can be reached: as long as the goal is not, a smaller rank is, with
the invariant again. -/
theorem canReach_of_rank {I : List (Transition σ ι) → σ → Prop}
    (rank : List (Transition σ ι) → Nat)
    (hround : ∀ history s, I history s → M.CanReach G
      (fun history' s' => P history' s' ∨ (I history' s' ∧ rank history' < rank history))
        history s) :
    ∀ history s, I history s → M.CanReach G P history s := by
  have hends : ∀ r history s, rank history = r → I history s → M.CanReach G P history s := by
    intro r
    induction r using Nat.strongRecOn with
    | ind r ih =>
      rintro history s rfl hs
      refine (hround history s hs).trans fun history' s' hreached => ?_
      rcases hreached with hgoal | ⟨hs', hless⟩
      · exact .here hgoal
      · exact ih _ hless history' s' rfl hs'
  exact fun history s hs => hends _ history s rfl hs

end Reaching

/-! ## The view of a part -/

section View

variable {τ κ : Type} (view : σ → τ) (read : Transition σ ι → Option κ)

/-- The steps that a part of the system takes in a history, as the part sees them. -/
def project (history : List (Transition σ ι)) : List (Transition τ κ) :=
  history.filterMap fun t => (read t).map fun l => ⟨view t.source, l, view t.target⟩

/-- Every step is a step of the part or leaves it as it was. -/
def Refines (M : Machine σ ι) (N : Machine τ κ) : Prop :=
  ∀ s l s', M.step s l s' →
    match read ⟨s, l, s'⟩ with
    | some l' => N.step (view s) l' (view s')
    | none => view s' = view s

variable {view read} {N : Machine τ κ}

theorem project_cons_some {history : List (Transition σ ι)} {t : Transition σ ι} {l : κ}
    (h : read t = some l) :
    project view read (t :: history) =
      ⟨view t.source, l, view t.target⟩ :: project view read history := by
  rw [project, List.filterMap_cons, h]
  rfl

theorem project_cons_none {history : List (Transition σ ι)} {t : Transition σ ι}
    (h : read t = none) : project view read (t :: history) = project view read history := by
  rw [project, List.filterMap_cons, h]
  rfl

/-- A run of the system is a run of the part. -/
theorem Run.project (hrefines : Refines view read M N) (hinit : ∀ s, M.init s → N.init (view s))
    {history : List (Transition σ ι)} {s : σ} (hrun : M.Run history s) :
    N.Run (project view read history) (view s) := by
  induction hrun with
  | start hs => exact .start (hinit _ hs)
  | @snoc history s s' l _ hlast ih =>
    have hstep := hrefines s l s' hlast
    split at hstep
    · rename_i hread
      rw [project_cons_some hread]
      exact ih.snoc hstep
    · rename_i hread
      rw [project_cons_none hread, hstep]
      exact ih

/-- What the part can go on to, the system can go on to, when it can take every step of
the part and keep `J`. -/
theorem canReach_of_run {J : List (Transition σ ι) → σ → Prop} {G : σ → ι → Prop}
    {H : τ → κ → Prop}
    (hlift : ∀ history s l t, J history s → N.step (view s) l t → H (view s) l →
      M.CanReach G (fun history' s' => J history' s' ∧ view s' = t ∧
        Machine.project view read history' =
          ⟨view s, l, t⟩ :: Machine.project view read history) history s)
    {history : List (Transition σ ι)} {s : σ} (hs : J history s) {more : List (Transition τ κ)}
    {t : τ} (hmore : (N.startingAt (view s)).Run more t) (hguard : Guarded H more) :
    M.CanReach G (fun history' s' => J history' s' ∧ view s' = t ∧
      Machine.project view read history' = more ++ Machine.project view read history)
      history s := by
  induction hmore with
  | start ht => exact .here ⟨hs, Eq.symm ht, rfl⟩
  | snoc _ hlast ih =>
    refine (ih hguard.tail).trans fun history₁ s₁ hreached => ?_
    obtain ⟨hs₁, rfl, hproject⟩ := hreached
    refine (hlift history₁ s₁ _ _ hs₁ hlast (hguard _ List.mem_cons_self)).mono
      fun history₂ s₂ hstepped => ⟨hstepped.1, hstepped.2.1, ?_⟩
    rw [hstepped.2.2, hproject]
    rfl

/-- A condition on the history of the part, as a condition on the history of the
system. -/
theorem always_project {G : List (Transition τ κ) → Transition τ κ → Prop}
    {history : List (Transition σ ι)} :
    Always G (project view read history) ↔
      Always (fun older t => ∀ l, read t = some l →
        G (project view read older) ⟨view t.source, l, view t.target⟩) history := by
  induction history with
  | nil => exact iff_of_true (always_nil _) (always_nil _)
  | cons t history ih =>
    cases hread : read t with
    | none =>
      rw [project_cons_none hread, always_cons, ih, and_iff_right]
      intro l hl
      rw [hread] at hl
      cases hl
    | some l =>
      rw [project_cons_some hread, always_cons, always_cons, ih]
      refine and_congr_left fun _ => ⟨fun h l' hl' => ?_, fun h => h l hread⟩
      obtain rfl := Option.some.inj (hread.symm.trans hl')
      exact h

/-- What a part has in every state it reaches, it has in every state the system
reaches. -/
theorem Run.always_view (hrefines : Refines view read M N)
    (hinit : ∀ s, M.init s → N.init (view s)) {P : List (Transition τ κ) → τ → Prop}
    (hstart : ∀ s, N.init s → P [] s) {history : List (Transition σ ι)} {s : σ}
    (hrun : M.Run history s) :
    Always (fun older t => P (t :: older) t.target) (Machine.project view read history) ↔
      Always (fun older t => P (Machine.project view read (t :: older)) (view t.target))
        history := by
  constructor
  · intro h t older hsuffix
    obtain ⟨hsofar, hstep⟩ := hrun.of_suffix hsuffix
    exact ((hsofar.snoc hstep).project hrefines hinit).reached hstart
      (h.of_suffix (hsuffix.filterMap _))
  · intro h
    refine always_project.mpr fun t older hsuffix l hread => ?_
    have hreached : P (Machine.project view read (t :: older)) (view t.target) :=
      h t older hsuffix
    rw [project_cons_some hread] at hreached
    exact hreached

end View

end Machine

end BitTorrentClient.Library
