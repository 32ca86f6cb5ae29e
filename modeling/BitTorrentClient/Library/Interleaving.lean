/-
  Library/Interleaving.lean --- actions that use different resources, in any order.

  Every action uses some resources.  Two actions that share none can be taken in either
  order.  Then an interleaving matters only as far as a resource can tell: two lists of
  actions in which every resource sees the same actions in the same order come to the
  same, and one of them can be taken if and only if the other can.

  `SameOrders.move` is the rule for building such lists: an action may be moved in front
  of actions that share nothing with it.

  Nothing here mentions particular actions or resources.
-/
import Mathlib.Data.List.Basic

set_option autoImplicit false

namespace BitTorrentClient.Library

namespace Interleaving

variable {σ α κ : Type} {uses : α → κ → Bool} {a b : α} {before after l l' l'' : List α}

/-- The actions share no resource. -/
def Independent (uses : α → κ → Bool) (a b : α) : Prop :=
  ∀ k, uses a k = true → uses b k = false

theorem Independent.symm (h : Independent uses a b) : Independent uses b a := by
  intro k hk
  cases ha : uses a k with
  | false => rfl
  | true =>
    rw [h k ha] at hk
    cases hk

/-- Every resource sees the same actions in the same order. -/
def SameOrders (uses : α → κ → Bool) (l l' : List α) : Prop :=
  ∀ k, l.filter (uses · k) = l'.filter (uses · k)

theorem SameOrders.refl (l : List α) : SameOrders uses l l := fun _ => rfl

theorem SameOrders.symm (h : SameOrders uses l l') : SameOrders uses l' l := fun k => (h k).symm

theorem SameOrders.trans (h : SameOrders uses l l') (h' : SameOrders uses l' l'') :
    SameOrders uses l l'' :=
  fun k => (h k).trans (h' k)

theorem SameOrders.cons (h : SameOrders uses l l') (a : α) :
    SameOrders uses (a :: l) (a :: l') := by
  intro k
  rw [List.filter_cons, List.filter_cons, h k]

/-- No action of the list uses a resource that is used by `a`. -/
theorem filter_eq_nil_of_independent {k : κ} (h : ∀ b ∈ before, Independent uses a b)
    (hk : uses a k = true) : before.filter (uses · k) = [] := by
  refine List.filter_eq_nil_iff.mpr fun b hb => ?_
  rw [h b hb k hk]
  exact Bool.false_ne_true

/-- An action is moved over actions that share nothing with it. -/
theorem SameOrders.move (h : ∀ b ∈ before, Independent uses a b) :
    SameOrders uses (before ++ a :: after) (a :: (before ++ after)) := by
  intro k
  rw [List.filter_append, List.filter_cons, List.filter_cons, List.filter_append]
  cases hk : uses a k with
  | false => simp
  | true => simp [filter_eq_nil_of_independent h hk]

/-- The first action of one list is found in the other, after actions that share nothing
with it. -/
theorem SameOrders.find (huses : ∃ k, uses a k = true) (h : SameOrders uses (a :: l) l') :
    ∃ before after, l' = before ++ a :: after ∧ (∀ b ∈ before, Independent uses a b) ∧
      SameOrders uses l (before ++ after) := by
  obtain ⟨k₀, hk₀⟩ := huses
  have hfirst := h k₀
  rw [List.filter_cons, if_pos hk₀] at hfirst
  obtain ⟨before, after, rfl, hbefore, _, _⟩ := List.filter_eq_cons_iff.mp hfirst.symm
  have hindependent : ∀ b ∈ before, Independent uses a b := by
    intro b hb k hk
    have hsame := h k
    rw [List.filter_cons, if_pos hk, List.filter_append] at hsame
    cases hseen : before.filter (uses · k) with
    | nil =>
      have hnone := List.filter_eq_nil_iff.mp hseen b hb
      exact Bool.eq_false_iff.mpr hnone
    | cons c rest =>
      -- the resource would see `a` there already, and `a` uses `k₀`
      rw [hseen, List.cons_append] at hsame
      obtain ⟨rfl, _⟩ := List.cons.inj hsame
      have hmem : a ∈ before := List.mem_of_mem_filter (hseen ▸ List.mem_cons_self)
      exact absurd hk₀ (hbefore a hmem)
  refine ⟨before, after, rfl, hindependent, fun k => ?_⟩
  have hsame := (h.trans (.move hindependent)) k
  rw [List.filter_cons, List.filter_cons] at hsame
  split at hsame
  · exact (List.cons.inj hsame).2
  · exact hsame

section Acting

variable {act : σ → α → Option σ}

/-- Independent actions can be taken in either order. -/
def Commutes (uses : α → κ → Bool) (act : σ → α → Option σ) : Prop :=
  ∀ a b, Independent uses a b → ∀ s, ((act s a).bind fun s' => act s' b) =
    (act s b).bind fun s' => act s' a

theorem foldlM_move (hcommutes : Commutes uses act) (h : ∀ b ∈ before, Independent uses a b)
    (s : σ) : (before ++ a :: after).foldlM act s = (a :: (before ++ after)).foldlM act s := by
  induction before generalizing s with
  | nil => rfl
  | cons b before ih =>
    obtain ⟨hb, hbefore⟩ := List.forall_mem_cons.mp h
    calc (b :: before ++ a :: after).foldlM act s
        = (act s b).bind fun s' => (before ++ a :: after).foldlM act s' := rfl
      _ = (act s b).bind fun s' => (a :: (before ++ after)).foldlM act s' := by
          exact congrArg (Option.bind (act s b)) (funext fun s' => ih hbefore s')
      _ = ((act s b).bind fun s' => act s' a).bind fun s' => (before ++ after).foldlM act s' := by
          rw [Option.bind_assoc]
          rfl
      _ = ((act s a).bind fun s' => act s' b).bind fun s' => (before ++ after).foldlM act s' := by
          rw [hcommutes a b hb s]
      _ = (a :: (b :: before ++ after)).foldlM act s := by
          rw [Option.bind_assoc]
          rfl

/-- Lists in which every resource sees the same come to the same. -/
theorem foldlM_eq_of_sameOrders (hcommutes : Commutes uses act)
    (huses : ∀ a, ∃ k, uses a k = true) (h : SameOrders uses l l') (s : σ) :
    l.foldlM act s = l'.foldlM act s := by
  induction l generalizing l' s with
  | nil =>
    cases l' with
    | nil => rfl
    | cons b rest =>
      obtain ⟨k, hk⟩ := huses b
      have hsame := h k
      rw [List.filter_nil, List.filter_cons, if_pos hk] at hsame
      cases hsame
  | cons a l ih =>
    obtain ⟨before, after, rfl, hindependent, hrest⟩ := h.find (huses a)
    rw [foldlM_move hcommutes hindependent]
    exact congrArg (Option.bind (act s a)) (funext fun s' => ih hrest s')

end Acting

/-! ## Parties that are not interrupted -/

section Parties

variable {ι β : Type} {party : α → ι} {isPrivate : α → Bool}

/-- A party that has taken a private action takes the next action too, or none any more. -/
def Uninterrupted (party : α → ι) (isPrivate : α → Bool) : List α → Prop
  | [] => True
  | [_] => True
  | a :: b :: rest =>
      (party b = party a ∨ isPrivate a = false ∨ ∀ c ∈ b :: rest, party c ≠ party a) ∧
        Uninterrupted party isPrivate (b :: rest)

theorem Uninterrupted.tail (h : Uninterrupted party isPrivate (a :: l)) :
    Uninterrupted party isPrivate l := by
  cases l with
  | nil => trivial
  | cons b rest => exact h.2

theorem Uninterrupted.cons (h : Uninterrupted party isPrivate l)
    (ha : isPrivate a = false ∨ ∀ c ∈ l, party c ≠ party a) :
    Uninterrupted party isPrivate (a :: l) := by
  cases l with
  | nil => trivial
  | cons b rest => exact ⟨Or.inr ha, h⟩

theorem uninterrupted_map {f : β → α} {l : List β} :
    Uninterrupted party isPrivate (l.map f) ↔
      Uninterrupted (fun b => party (f b)) (fun b => isPrivate (f b)) l := by
  induction l with
  | nil => exact Iff.rfl
  | cons a rest ih =>
    cases rest with
    | nil => exact Iff.rfl
    | cons b rest =>
      refine and_congr (or_congr Iff.rfl (or_congr Iff.rfl ?_)) ih
      exact List.forall_mem_map (l := b :: rest)

variable [DecidableEq ι]

instance decidableUninterrupted : ∀ l : List α, Decidable (Uninterrupted party isPrivate l)
  | [] => isTrue trivial
  | [_] => isTrue trivial
  | a :: b :: rest =>
      have := decidableUninterrupted (b :: rest)
      inferInstanceAs (Decidable ((party b = party a ∨ isPrivate a = false ∨
        ∀ c ∈ b :: rest, party c ≠ party a) ∧ Uninterrupted party isPrivate (b :: rest)))

/-- Put an action in front of the first one of its party. -/
def place (party : α → ι) (a : α) : List α → List α
  | [] => [a]
  | b :: rest => if party b = party a then a :: b :: rest else b :: place party a rest

theorem mem_place {c : α} (h : c ∈ place party a l) : c = a ∨ c ∈ l := by
  induction l with
  | nil => exact Or.inl (List.mem_singleton.mp h)
  | cons b rest ih =>
    rw [place] at h
    split at h
    · exact List.mem_cons.mp h
    · rcases List.mem_cons.mp h with rfl | hrest
      · exact Or.inr List.mem_cons_self
      · exact (ih hrest).imp_right (List.mem_cons_of_mem b)

theorem place_split (party : α → ι) (a : α) (l : List α) :
    ∃ before after, l = before ++ after ∧ place party a l = before ++ a :: after ∧
      ∀ b ∈ before, party b ≠ party a := by
  induction l with
  | nil => exact ⟨[], [], rfl, rfl, fun _ hb => absurd hb List.not_mem_nil⟩
  | cons b rest ih =>
    rw [place]
    split
    · exact ⟨[], b :: rest, rfl, rfl, fun _ hb => absurd hb List.not_mem_nil⟩
    · rename_i hne
      obtain ⟨before, after, rfl, hplace, hbefore⟩ := ih
      refine ⟨b :: before, after, rfl, ?_, List.forall_mem_cons.mpr ⟨hne, hbefore⟩⟩
      rw [hplace]
      rfl

/-- No party is interrupted by an action that stands in front of one of its own. -/
theorem Uninterrupted.place (h : Uninterrupted party isPrivate l) (a : α) :
    Uninterrupted party isPrivate (place party a l) := by
  induction l with
  | nil => trivial
  | cons b rest ih =>
    have hrest := ih h.tail
    rw [Interleaving.place]
    split
    · rename_i hsame
      exact ⟨Or.inl hsame, h⟩
    · rename_i hne
      cases rest with
      | nil =>
        refine hrest.cons (Or.inr fun c hc => ?_)
        rw [List.mem_singleton.mp hc]
        exact Ne.symm hne
      | cons c rest =>
        rcases h.1 with hsame | hshared | hlast
        · rw [Interleaving.place, if_neg (hsame ▸ hne)] at hrest ⊢
          exact ⟨Or.inl hsame, hrest⟩
        · exact hrest.cons (Or.inl hshared)
        · refine hrest.cons (Or.inr fun d hd => ?_)
          rcases mem_place hd with rfl | hd
          · exact Ne.symm hne
          · exact hlast d hd

/-- The rule for reduction: when private actions share nothing with other parties, every
list of actions has one that comes to the same and interrupts nobody. -/
theorem exists_uninterrupted (uses : α → κ → Bool) (party : α → ι) (isPrivate : α → Bool)
    (hprivate : ∀ a b, isPrivate a = true → party b ≠ party a → Independent uses a b)
    (l : List α) : ∃ l', SameOrders uses l l' ∧ Uninterrupted party isPrivate l' := by
  induction l with
  | nil => exact ⟨[], .refl [], trivial⟩
  | cons a l ih =>
    obtain ⟨l', hsame, hwhole⟩ := ih
    cases ha : isPrivate a with
    | false => exact ⟨a :: l', hsame.cons a, hwhole.cons (Or.inl ha)⟩
    | true =>
      refine ⟨Interleaving.place party a l', ?_, hwhole.place a⟩
      obtain ⟨before, after, rfl, hplace, hbefore⟩ := place_split party a l'
      rw [hplace]
      exact (hsame.cons a).trans
        (SameOrders.move fun b hb => hprivate a b ha (hbefore b hb)).symm

end Parties

end Interleaving

end BitTorrentClient.Library
