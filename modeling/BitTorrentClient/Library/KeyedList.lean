/-
  Library/KeyedList.lean --- lists kept strictly increasing in a key.

  The representation of ordered associative containers: an element is identified
  by its key alone, at most one element is held for each key, and traversal is in
  key order.  `emplace` keeps an element that is already there, `assign` replaces
  it, `erase` removes by key.

  `Keyed key l` is the well-formedness predicate on plain lists; `KeyedSet key`
  carries it as a field, so that a list that is out of order cannot be built.
-/
import Mathlib.Order.Lattice
import Mathlib.Data.List.Basic
import Mathlib.Data.List.Perm.Subperm

set_option autoImplicit false

namespace BitTorrentClient.Library

variable {α κ : Type} [LinearOrder κ] {key : α → κ}

/-- The keys of `l` are strictly increasing. -/
def Keyed (key : α → κ) (l : List α) : Prop :=
  l.Pairwise fun a b => key a < key b

namespace Keyed

/-- Insert `a` at its place unless its key is already held. -/
def emplace (key : α → κ) (a : α) : List α → List α
  | [] => [a]
  | b :: rest =>
      if key a < key b then a :: b :: rest
      else if key a = key b then b :: rest
      else b :: emplace key a rest

/-- Insert `a` at its place, replacing the element that holds its key. -/
def assign (key : α → κ) (a : α) : List α → List α
  | [] => [a]
  | b :: rest =>
      if key a < key b then a :: b :: rest
      else if key a = key b then a :: rest
      else b :: assign key a rest

/-- Remove the element that holds the key `k`. -/
def erase (key : α → κ) (k : κ) (l : List α) : List α :=
  l.filter fun a => decide (key a ≠ k)

/-- Whether the key `k` is held. -/
def holds (key : α → κ) (k : κ) (l : List α) : Bool :=
  l.any fun a => decide (key a = k)

/-- The element that holds the key `k`. -/
def find (key : α → κ) (k : κ) (l : List α) : Option α :=
  l.find? fun a => decide (key a = k)

theorem nil : Keyed key [] := List.Pairwise.nil

theorem holds_iff {k : κ} {l : List α} :
    holds key k l = true ↔ ∃ a ∈ l, key a = k := by
  simp [holds]

theorem mem_erase {k : κ} {l : List α} {a : α} :
    a ∈ erase key k l ↔ a ∈ l ∧ key a ≠ k := by
  simp [erase]

/-- Emplacing adds the element exactly when its key is free. -/
theorem mem_emplace {a b : α} {l : List α} (h : Keyed key l) :
    b ∈ emplace key a l ↔ b ∈ l ∨ (b = a ∧ ∀ c ∈ l, key c ≠ key a) := by
  induction l with
  | nil => simp [emplace]
  | cons c rest ih =>
    obtain ⟨hc, hrest⟩ := List.pairwise_cons.mp h
    unfold emplace
    split
    · rename_i hlt
      have hfree : ∀ d ∈ c :: rest, key d ≠ key a := by
        intro d hd
        rcases List.mem_cons.mp hd with rfl | hd
        · exact ne_of_gt hlt
        · exact ne_of_gt (hlt.trans (hc d hd))
      simp only [List.mem_cons] at hfree ⊢
      tauto
    · split
      · rename_i heq
        have hheld : ¬ ∀ d ∈ c :: rest, key d ≠ key a :=
          fun hfree => hfree c List.mem_cons_self heq.symm
        tauto
      · rename_i _ hne
        have hne' : key c ≠ key a := fun he => hne he.symm
        simp only [List.mem_cons, ih hrest, forall_eq_or_imp]
        tauto

theorem emplace_keyed {a : α} {l : List α} (h : Keyed key l) :
    Keyed key (emplace key a l) := by
  induction l with
  | nil => exact List.pairwise_singleton _ _
  | cons c rest ih =>
    obtain ⟨hc, hrest⟩ := List.pairwise_cons.mp h
    unfold emplace
    split
    · rename_i hlt
      refine List.pairwise_cons.mpr ⟨?_, h⟩
      intro d hd
      rcases List.mem_cons.mp hd with rfl | hd
      · exact hlt
      · exact hlt.trans (hc d hd)
    · split
      · exact h
      · rename_i hnlt hne
        refine List.pairwise_cons.mpr ⟨?_, ih hrest⟩
        intro d hd
        rcases (mem_emplace hrest).mp hd with hd | ⟨rfl, _⟩
        · exact hc d hd
        · exact lt_of_le_of_ne (not_lt.mp hnlt) fun he => hne he.symm

/-- Past the last key, emplacing appends. -/
theorem emplace_append {a : α} {l : List α} (h : ∀ b ∈ l, key b < key a) :
    emplace key a l = l ++ [a] := by
  induction l with
  | nil => rfl
  | cons c rest ih =>
    have hlt : key c < key a := h c List.mem_cons_self
    rw [emplace, if_neg hlt.not_gt, if_neg hlt.ne', ih fun b hb =>
      h b (List.mem_cons_of_mem c hb), List.cons_append]

theorem find_cons (k : κ) (a : α) (l : List α) :
    find key k (a :: l) = if key a = k then some a else find key k l := by
  rw [find, List.find?_cons]
  by_cases h : key a = k
  · simp [h]
  · simp [h, find]

/-- Behind a greater key there is nothing to find. -/
theorem find_eq_none_of_lt {k : κ} {l : List α} (h : ∀ b ∈ l, k < key b) :
    find key k l = none := by
  rw [find, List.find?_eq_none]
  intro b hb
  simpa using ne_of_gt (h b hb)

/-- Emplacing changes what is found only at a key that is free. -/
theorem find_emplace {a : α} {k : κ} {l : List α} (h : Keyed key l) :
    find key k (emplace key a l) =
      (find key k l).or (if key a = k then some a else none) := by
  induction l with
  | nil => simp [emplace, find]
  | cons c rest ih =>
    obtain ⟨hc, hrest⟩ := List.pairwise_cons.mp h
    unfold emplace
    split
    · rename_i hlt
      rw [find_cons]
      split
      · rename_i heq
        have hnone : find key k (c :: rest) = none := by
          refine find_eq_none_of_lt fun b hb => ?_
          rcases List.mem_cons.mp hb with rfl | hb
          · exact heq ▸ hlt
          · exact heq ▸ hlt.trans (hc b hb)
        rw [hnone, Option.none_or]
      · rw [Option.or_none]
    · split
      · rename_i heq
        rw [find_cons]
        split
        · rw [Option.some_or]
        · rename_i hne
          rw [if_neg fun ha => hne (heq ▸ ha), Option.or_none]
      · rw [find_cons, find_cons, ih hrest]
        split
        · rw [Option.some_or]
        · rfl

theorem erase_keyed {k : κ} {l : List α} (h : Keyed key l) :
    Keyed key (erase key k l) :=
  h.filter _

end Keyed

/-- An ordered set of elements identified by their keys. -/
structure KeyedSet (key : α → κ) where
  /-- The elements in traversal order. -/
  elems : List α
  /-- Their keys are strictly increasing. -/
  keyed : Keyed key elems

namespace KeyedSet

instance [DecidableEq α] : DecidableEq (KeyedSet key) := fun s t =>
  decidable_of_iff (s.elems = t.elems)
    ⟨fun h => by cases s; cases t; simp_all, fun h => h ▸ rfl⟩

/-- The empty set. -/
def empty : KeyedSet key := ⟨[], Keyed.nil⟩

/-- Whether an element with the key of `a` is held. -/
def contains (s : KeyedSet key) (a : α) : Bool := Keyed.holds key (key a) s.elems

/-- Add `a` unless its key is held. -/
def insert (s : KeyedSet key) (a : α) : KeyedSet key :=
  ⟨Keyed.emplace key a s.elems, Keyed.emplace_keyed s.keyed⟩

/-- Remove the element with the key of `a`. -/
def erase (s : KeyedSet key) (a : α) : KeyedSet key :=
  ⟨Keyed.erase key (key a) s.elems, Keyed.erase_keyed s.keyed⟩

/-- The number of elements. -/
def size (s : KeyedSet key) : Nat := s.elems.length

/-- Some element of `s` has the key `k`. -/
def Has (s : KeyedSet key) (k : κ) : Prop := ∃ a ∈ s.elems, key a = k

instance (s : KeyedSet key) (k : κ) : Decidable (s.Has k) :=
  inferInstanceAs (Decidable (∃ a ∈ s.elems, key a = k))

@[simp] theorem has_empty (k : κ) : ¬ (empty : KeyedSet key).Has k := by
  simp [Has, empty]

theorem contains_iff {s : KeyedSet key} {a : α} :
    s.contains a = true ↔ s.Has (key a) := Keyed.holds_iff

@[simp] theorem has_erase {s : KeyedSet key} {a : α} {k : κ} :
    (s.erase a).Has k ↔ s.Has k ∧ k ≠ key a := by
  constructor
  · rintro ⟨b, hb, rfl⟩
    obtain ⟨hmem, hne⟩ := Keyed.mem_erase.mp hb
    exact ⟨⟨b, hmem, rfl⟩, hne⟩
  · rintro ⟨⟨b, hb, rfl⟩, hne⟩
    exact ⟨b, Keyed.mem_erase.mpr ⟨hb, hne⟩, rfl⟩

/-- Erasing a key that is not held changes nothing. -/
theorem erase_of_not_has {s : KeyedSet key} {a : α} (h : ¬ s.Has (key a)) : s.erase a = s := by
  obtain ⟨elems, hkeyed⟩ := s
  have hsame : Keyed.erase key (key a) elems = elems := by
    refine List.filter_eq_self.mpr fun b hb => decide_eq_true fun heq => h ⟨b, hb, heq⟩
  simp only [erase, hsame]

/-- What is erased is a key. -/
theorem erase_congr (s : KeyedSet key) {a b : α} (h : key a = key b) : s.erase a = s.erase b := by
  simp only [erase, h]

theorem erase_comm (s : KeyedSet key) (a b : α) : (s.erase a).erase b = (s.erase b).erase a := by
  simp only [erase, Keyed.erase, List.filter_filter, Bool.and_comm]

theorem nodup_keys (s : KeyedSet key) : (s.elems.map key).Nodup := by
  have hkeyed : (s.elems.map key).Pairwise (· < ·) := List.pairwise_map.mpr s.keyed
  exact hkeyed.imp ne_of_lt

theorem mem_keys {s : KeyedSet key} {k : κ} : k ∈ s.elems.map key ↔ s.Has k := List.mem_map

/-- A set is no larger than a list that its keys are in. -/
theorem size_le {s : KeyedSet key} {keys : List κ} (h : ∀ k, s.Has k → k ∈ keys) :
    s.size ≤ keys.length := by
  have hsubset : s.elems.map key ⊆ keys := fun k hk => h k (mem_keys.mp hk)
  calc s.size = (s.elems.map key).length := (List.length_map _).symm
    _ ≤ keys.length := (List.subperm_of_subset s.nodup_keys hsubset).length_le

/-- A set is at least as large as a list of different keys of it. -/
theorem length_le_size {s : KeyedSet key} {keys : List κ} (hnodup : keys.Nodup)
    (h : ∀ k ∈ keys, s.Has k) : keys.length ≤ s.size := by
  have hsubset : keys ⊆ s.elems.map key := fun k hk => mem_keys.mpr (h k hk)
  calc keys.length ≤ (s.elems.map key).length := (List.subperm_of_subset hnodup hsubset).length_le
    _ = s.size := List.length_map _

theorem size_erase_le (s : KeyedSet key) (a : α) : (s.erase a).size ≤ s.size :=
  List.length_filter_le _ _

theorem size_insert_le (s : KeyedSet key) (a : α) : (s.insert a).size ≤ s.size + 1 := by
  have hlen : ∀ l : List α, (Keyed.emplace key a l).length ≤ l.length + 1 := by
    intro l
    induction l with
    | nil => exact Nat.le_refl 1
    | cons b rest ih =>
      unfold Keyed.emplace
      split
      · exact Nat.le_refl _
      · split
        · exact Nat.le_succ _
        · exact Nat.succ_le_succ ih
  exact hlen s.elems

theorem mem_erase {s : KeyedSet key} {a b : α} :
    b ∈ (s.erase a).elems ↔ b ∈ s.elems ∧ key b ≠ key a := Keyed.mem_erase

/-- Membership after an insertion. -/
theorem mem_insert {s : KeyedSet key} {a b : α} :
    b ∈ (s.insert a).elems ↔ b ∈ s.elems ∨ (b = a ∧ ¬ s.Has (key a)) := by
  have h := Keyed.mem_emplace (a := a) (b := b) s.keyed
  simpa [insert, Has] using h

@[simp] theorem has_insert {s : KeyedSet key} {a : α} {k : κ} :
    (s.insert a).Has k ↔ s.Has k ∨ k = key a := by
  constructor
  · rintro ⟨b, hb, rfl⟩
    rcases mem_insert.mp hb with hb | ⟨rfl, _⟩
    · exact Or.inl ⟨b, hb, rfl⟩
    · exact Or.inr rfl
  · rintro (⟨b, hb, rfl⟩ | rfl)
    · exact ⟨b, mem_insert.mpr (Or.inl hb), rfl⟩
    · by_cases hheld : s.Has (key a)
      · obtain ⟨b, hb, hkey⟩ := hheld
        exact ⟨b, mem_insert.mpr (Or.inl hb), hkey⟩
      · exact ⟨a, mem_insert.mpr (Or.inr ⟨rfl, hheld⟩), rfl⟩

/-- An insertion makes room for a new key only. -/
theorem size_insert_of_has {s : KeyedSet key} {a : α} (h : s.Has (key a)) :
    (s.insert a).size ≤ s.size := by
  have hkeys : ∀ k, (s.insert a).Has k → k ∈ s.elems.map key := by
    intro k hk
    rcases has_insert.mp hk with hk | rfl
    · exact mem_keys.mpr hk
    · exact mem_keys.mpr h
  exact (size_le hkeys).trans (Nat.le_of_eq (List.length_map _))

theorem size_insert_of_not_has {s : KeyedSet key} {a : α} (h : ¬ s.Has (key a)) :
    (s.insert a).size = s.size + 1 := by
  refine Nat.le_antisymm (size_insert_le s a) ?_
  have hnodup : (key a :: s.elems.map key).Nodup :=
    List.nodup_cons.mpr ⟨fun hmem => h (mem_keys.mp hmem), s.nodup_keys⟩
  have hkeys : ∀ k ∈ key a :: s.elems.map key, (s.insert a).Has k := by
    intro k hk
    rcases List.mem_cons.mp hk with rfl | hk
    · exact has_insert.mpr (Or.inr rfl)
    · exact has_insert.mpr (Or.inl (mem_keys.mp hk))
  simpa [size] using length_le_size hnodup hkeys

end KeyedSet

end BitTorrentClient.Library
