/-
  Library/Search.lean --- searching a list with a step that may fail.

  `List.findSomeM?` over `Except` runs its step on one element after another and
  stops at the first answer or the first error.  These are the two inversion
  rules: an answer comes from an element all of whose predecessors were asked
  and declined, and no answer means that every element declined.  A search made of
  searches is one search of the elements put together.
-/
import Mathlib.Data.List.Basic

set_option autoImplicit false

namespace BitTorrentClient.Library

variable {ε α β γ : Type} {f : α → Except ε (Option β)}

theorem findSomeM?_cons (a : α) (rest : List α) :
    (a :: rest).findSomeM? f =
      match f a with
      | .error e => .error e
      | .ok (some b) => .ok (some b)
      | .ok none => rest.findSomeM? f := by
  rw [List.findSomeM?]
  cases f a with
  | error e => rfl
  | ok r => cases r <;> rfl

/-- A search that does not come to the end of the list was stopped by the first
element that does not decline. -/
theorem findSomeM?_eq_iff {l : List α} {r : Except ε (Option β)} (hr : r ≠ .ok none) :
    l.findSomeM? f = r ↔
      ∃ before a after, l = before ++ a :: after ∧
        (∀ x ∈ before, f x = .ok none) ∧ f a = r := by
  induction l with
  | nil => simp [List.findSomeM?, pure, Except.pure, hr.symm]
  | cons a rest ih =>
    rw [findSomeM?_cons]
    constructor
    · intro h
      split at h
      · rename_i e he
        exact ⟨[], a, rest, rfl, by simp, he.trans h⟩
      · rename_i b hb
        exact ⟨[], a, rest, rfl, by simp, hb.trans h⟩
      · rename_i hnone
        obtain ⟨before, c, after, rfl, hbefore, hc⟩ := ih.mp h
        refine ⟨a :: before, c, after, rfl, ?_, hc⟩
        intro x hx
        rcases List.mem_cons.mp hx with rfl | hx
        · exact hnone
        · exact hbefore x hx
    · rintro ⟨before, c, after, heq, hbefore, hc⟩
      cases before with
      | nil =>
        obtain ⟨rfl, rfl⟩ : a = c ∧ rest = after := by simpa using heq
        rw [hc]
        match r, hr with
        | .error e, _ => rfl
        | .ok (some b), _ => rfl
        | .ok none, hr => exact absurd rfl hr
      | cons x before =>
        obtain ⟨rfl, rfl⟩ : a = x ∧ rest = before ++ c :: after := by simpa using heq
        rw [hbefore a List.mem_cons_self]
        exact ih.mpr ⟨before, c, after, rfl,
          fun y hy => hbefore y (List.mem_cons_of_mem a hy), hc⟩

/-- An answer comes from the first element that does not decline. -/
theorem findSomeM?_eq_some {l : List α} {b : β} :
    l.findSomeM? f = .ok (some b) ↔
      ∃ before a after, l = before ++ a :: after ∧
        (∀ x ∈ before, f x = .ok none) ∧ f a = .ok (some b) :=
  findSomeM?_eq_iff (by simp)

/-- No answer means that every element declined. -/
theorem findSomeM?_eq_none {l : List α} :
    l.findSomeM? f = .ok none ↔ ∀ x ∈ l, f x = .ok none := by
  induction l with
  | nil => simp [List.findSomeM?, pure, Except.pure]
  | cons a rest ih =>
    rw [findSomeM?_cons]
    cases hfa : f a with
    | error e => simp [hfa]
    | ok r =>
      cases r with
      | none => simp [hfa, ih]
      | some b => simp [hfa]

/-! ## Searches of searches -/

theorem findSomeM?_congr {f' : α → Except ε (Option β)} {l : List α} (h : ∀ a ∈ l, f a = f' a) :
    l.findSomeM? f = l.findSomeM? f' := by
  induction l with
  | nil => rfl
  | cons a rest ih =>
    rw [findSomeM?_cons, findSomeM?_cons, h a List.mem_cons_self,
      ih fun b hb => h b (List.mem_cons_of_mem a hb)]

theorem findSomeM?_append (l₁ l₂ : List α) :
    (l₁ ++ l₂).findSomeM? f =
      match l₁.findSomeM? f with
      | .error e => .error e
      | .ok (some b) => .ok (some b)
      | .ok none => l₂.findSomeM? f := by
  induction l₁ with
  | nil => rfl
  | cons a rest ih =>
    rw [List.cons_append, findSomeM?_cons, findSomeM?_cons]
    cases f a with
    | error e => rfl
    | ok r =>
      cases r with
      | some b => rfl
      | none => exact ih

/-- Searching one list for each element is searching all of them, one after another. -/
theorem findSomeM?_flatMap (l : List γ) (g : γ → List α) :
    (l.flatMap g).findSomeM? f = l.findSomeM? fun c => (g c).findSomeM? f := by
  induction l with
  | nil => rfl
  | cons c rest ih =>
    rw [List.flatMap_cons, findSomeM?_append, findSomeM?_cons, ih]

theorem findSomeM?_map (g : γ → α) (l : List γ) :
    (l.map g).findSomeM? f = l.findSomeM? fun c => f (g c) := by
  induction l with
  | nil => rfl
  | cons c rest ih => rw [List.map_cons, findSomeM?_cons, findSomeM?_cons, ih]

/-- Elements that are left out decline. -/
theorem findSomeM?_filter (l : List α) (p : α → Bool) :
    (l.filter p).findSomeM? f = l.findSomeM? fun a => if p a then f a else .ok none := by
  induction l with
  | nil => rfl
  | cons a rest ih =>
    rw [List.filter_cons, findSomeM?_cons]
    cases p a with
    | true => rw [if_pos rfl, findSomeM?_cons, ih, if_pos rfl]
    | false => rw [if_neg Bool.false_ne_true, ih, if_neg Bool.false_ne_true]

end BitTorrentClient.Library
