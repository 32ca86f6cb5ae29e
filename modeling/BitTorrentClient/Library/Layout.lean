/-
  Library/Layout.lean --- items of known widths, laid out one after another.

  An item has a kind, and the kind says how wide the item is.  A layout is a bijection,
  for each kind, between the items of the kind and the vectors of its width.  `pack` puts
  items one behind another; `unpack` takes the items of given kinds off the front of a
  list, unless the list is too short.  Each undoes the other.

  Nothing here says what the items are.
-/
import Mathlib.Algebra.GroupWithZero.Nat
import Mathlib.Data.Vector.Basic

set_option autoImplicit false

namespace BitTorrentClient.Library

/-- The first `n` elements of a list that has as many. -/
def front {β : Type} {n : Nat} (l : List β) (h : n ≤ l.length) : List.Vector β n :=
  ⟨l.take n, List.length_take_of_le h⟩

@[simp] theorem toList_front {β : Type} {n : Nat} {l : List β} (h : n ≤ l.length) :
    (front l h).toList = l.take n := rfl

/-- How items of the kinds `κ` are laid out. -/
structure Layout (κ α β : Type) where
  width : κ → Nat
  kindOf : α → κ
  encode : (a : α) → List.Vector β (width (kindOf a))
  decode : (k : κ) → List.Vector β (width k) → α
  kindOf_decode : ∀ k v, kindOf (decode k v) = k
  decode_encode : ∀ a, decode (kindOf a) (encode a) = a
  encode_decode : ∀ k v, (encode (decode k v)).toList = v.toList

namespace Layout

variable {κ α β : Type} (layout : Layout κ α β)

/-- The items, one behind another. -/
def pack (items : List α) : List β := items.flatMap fun a => (layout.encode a).toList

/-- Items of these kinds from the front of a list, and what is left of it. -/
def unpack : List κ → List β → Option (List α × List β)
  | [], l => some ([], l)
  | k :: kinds, l =>
      if h : layout.width k ≤ l.length then
        (unpack kinds (l.drop (layout.width k))).map fun r =>
          (layout.decode k (front l h) :: r.1, r.2)
      else none

variable {layout} {k : κ} {kinds : List κ} {a : α} {items : List α} {l rest : List β}

theorem pack_cons : layout.pack (a :: items) = (layout.encode a).toList ++ layout.pack items :=
  List.flatMap_cons

/-- As wide as the kinds say. -/
theorem length_pack : (layout.pack items).length =
    (items.map fun a => layout.width (layout.kindOf a)).sum := by
  induction items with
  | nil => rfl
  | cons a items ih =>
    rw [pack_cons, List.length_append, ih, List.Vector.toList_length, List.map_cons, List.sum_cons]

/-- **Taking off what was put down**, with whatever stands behind it. -/
theorem unpack_pack (items : List α) (rest : List β) :
    layout.unpack (items.map layout.kindOf) (layout.pack items ++ rest) = some (items, rest) := by
  induction items with
  | nil => rfl
  | cons a items ih =>
    have hwidth : (layout.encode a).toList.length = layout.width (layout.kindOf a) :=
      List.Vector.toList_length _
    have hle : layout.width (layout.kindOf a) ≤ (layout.pack (a :: items) ++ rest).length := by
      rw [pack_cons, List.length_append, List.length_append, hwidth]
      omega
    have hfront : front (layout.pack (a :: items) ++ rest) hle = layout.encode a := by
      refine List.Vector.toList_injective ?_
      rw [toList_front, pack_cons, List.append_assoc, List.take_left' hwidth]
    have hdrop : (layout.pack (a :: items) ++ rest).drop (layout.width (layout.kindOf a)) =
        layout.pack items ++ rest := by
      rw [pack_cons, List.append_assoc, List.drop_left' hwidth]
    rw [List.map_cons, unpack, dif_pos hle, hdrop, ih, Option.map_some, hfront,
      layout.decode_encode]

/-- **Putting down what was taken off** gives the list back. -/
theorem pack_unpack (h : layout.unpack kinds l = some (items, rest)) :
    items.map layout.kindOf = kinds ∧ layout.pack items ++ rest = l := by
  induction kinds generalizing l items with
  | nil =>
    cases h
    exact ⟨rfl, rfl⟩
  | cons k kinds ih =>
    rw [unpack] at h
    split at h
    · rename_i hle
      obtain ⟨⟨later, rest'⟩, hlater, heq⟩ := Option.map_eq_some_iff.mp h
      obtain ⟨rfl, rfl⟩ := Prod.mk.inj heq
      obtain ⟨hkinds, hpack⟩ := ih hlater
      constructor
      · rw [List.map_cons, layout.kindOf_decode, hkinds]
      · rw [pack_cons, layout.encode_decode, List.append_assoc, hpack, toList_front]
        exact List.take_append_drop _ _
    · cases h

end Layout

end BitTorrentClient.Library
