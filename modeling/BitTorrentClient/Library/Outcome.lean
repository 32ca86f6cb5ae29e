/-
  Library/Outcome.lean --- computations whose steps are forced.

  A relation says where a computation may go on to.  `Forces` says that there is one way
  to go on, and `Ends` that every way to a final state leads to the same one.  A forced
  step leaves the end as it is, so the end of a computation is found by following its
  forced steps.

  Nothing here mentions a particular computation.
-/
import Mathlib.Logic.Relation

set_option autoImplicit false

namespace BitTorrentClient.Library

open Relation

variable {σ : Type} {r : σ → σ → Prop} {final : σ → Prop} {s s' t : σ}

/-- The only way to go on from `s` is to `t`. -/
structure Forces (r : σ → σ → Prop) (s t : σ) : Prop where
  goes : r s t
  only : ∀ u, r s u → u = t

/-- Every way from `s` to a final state leads to `s'`, and there is one. -/
structure Ends (r : σ → σ → Prop) (final : σ → Prop) (s s' : σ) : Prop where
  reached : ReflTransGen r s s'
  isFinal : final s'
  only : ∀ u, ReflTransGen r s u → final u → u = s'

/-- A final state from which nothing goes on is its own end. -/
theorem Ends.refl (hfinal : final s) (hstuck : ∀ u, ¬ r s u) : Ends r final s s where
  reached := .refl
  isFinal := hfinal
  only := by
    intro u hreach _
    rcases hreach.cases_head with rfl | ⟨v, hstep, _⟩
    · rfl
    · exact absurd hstep (hstuck v)

/-- A forced step leads to the same end. -/
theorem Ends.head (hforced : Forces r s t) (hnot : ¬ final s) (h : Ends r final t s') :
    Ends r final s s' where
  reached := .head hforced.goes h.reached
  isFinal := h.isFinal
  only := by
    intro u hreach hfinal
    rcases hreach.cases_head with rfl | ⟨v, hstep, hrest⟩
    · exact absurd hfinal hnot
    · obtain rfl := hforced.only v hstep
      exact h.only u hrest hfinal

/-- What holds of every final state is what holds of the end. -/
theorem Ends.forall_iff (h : Ends r final s s') {P : σ → Prop} :
    (∀ u, ReflTransGen r s u → final u → P u) ↔ P s' := by
  refine ⟨fun hall => hall s' h.reached h.isFinal, fun hP u hreach hfinal => ?_⟩
  rw [h.only u hreach hfinal]
  exact hP

end BitTorrentClient.Library
