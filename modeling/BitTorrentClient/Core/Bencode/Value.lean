/-
  Core/Bencode/Value.lean --- bencode values and their encoding
  (`core/bencode_parser.hpp`, `encode` of `core/bencode_parser.cpp`).

  A dictionary is the list of the pairs of a `std::map`, in its order: keys are
  strings of octets, compared as such.  `WF` says that every dictionary of a value
  is one; lists of pairs that are out of order have no counterpart in the source.
-/
import BitTorrentClient.Core.Failure
import BitTorrentClient.Library.Decimal
import BitTorrentClient.Library.KeyedList
import Mathlib.Data.List.Lex

set_option autoImplicit false

namespace BitTorrentClient

open Library

/-- Octets are ordered as unsigned numbers. -/
instance instLinearOrderUInt8 : LinearOrder UInt8 where
  le_refl := UInt8.le_refl
  le_trans _ _ _ := UInt8.le_trans
  le_antisymm _ _ := UInt8.le_antisymm
  le_total := UInt8.le_total
  lt_iff_le_not_ge a b := by
    simp only [UInt8.lt_iff_toNat_lt, UInt8.le_iff_toNat_le]
    omega
  toDecidableLE := inferInstance
  toDecidableEq := inferInstance
  toDecidableLT := inferInstance

/-- The octets of a text in ASCII. -/
def ascii (text : String) : Bytes := text.toList.map fun c => c.toNat.toUInt8

namespace Bencode

/-! ## The characters of the format -/

def intStart : UInt8 := 'i'.toUInt8
def listStart : UInt8 := 'l'.toUInt8
def dictStart : UInt8 := 'd'.toUInt8
def endMark : UInt8 := 'e'.toUInt8
def colonMark : UInt8 := ':'.toUInt8
def minusSign : UInt8 := '-'.toUInt8
def plusSign : UInt8 := '+'.toUInt8

/-- The marks of the containers, `List::id` and `Dict::id`. -/
def listId : UInt8 := listStart
def dictId : UInt8 := dictStart

/-- Any decoded bencode value. -/
inductive Value where
  | int (n : Int64)
  | str (bytes : Bytes)
  | list (values : List Value)
  | dict (values : List (Bytes × Value))
  deriving Repr, Inhabited

/-- The pairs of a dictionary. -/
abbrev Pairs := List (Bytes × Value)

/-! ## Encoding -/

/-- `std::to_string` of a signed integer. -/
def signedDecimal (n : Int) : Bytes :=
  if n < 0 then minusSign :: decimal n.natAbs else decimal n.natAbs

/-- The encoding of a string. -/
def encodeString (bytes : Bytes) : Bytes := decimal bytes.length ++ colonMark :: bytes

mutual

/-- Encode a value. -/
def encode : Value → Bytes
  | .int n => intStart :: signedDecimal n.toInt ++ [endMark]
  | .str bytes => encodeString bytes
  | .list values => listStart :: encodeItems values ++ [endMark]
  | .dict values => dictStart :: encodePairs values ++ [endMark]

/-- The elements of a list, one after another. -/
def encodeItems : List Value → Bytes
  | [] => []
  | v :: rest => encode v ++ encodeItems rest

/-- The pairs of a dictionary, each key before its value. -/
def encodePairs : Pairs → Bytes
  | [] => []
  | (key, v) :: rest => encodeString key ++ encode v ++ encodePairs rest

end

/-! ## Well-formed values -/

mutual

/-- Every dictionary is in the order of its keys, without duplicates. -/
def Value.WF : Value → Prop
  | .int _ => True
  | .str _ => True
  | .list values => WFItems values
  | .dict values => Keyed Prod.fst values ∧ WFPairs values

/-- Every element is well formed. -/
def WFItems : List Value → Prop
  | [] => True
  | v :: rest => v.WF ∧ WFItems rest

/-- The value of every pair is well formed. -/
def WFPairs : Pairs → Prop
  | [] => True
  | (_, v) :: rest => v.WF ∧ WFPairs rest

end

/-! ## Depth -/

mutual

/-- The depth of the deepest node, the value itself being at depth zero. -/
def Value.height : Value → Nat
  | .int _ => 0
  | .str _ => 0
  | .list values => heightItems values
  | .dict values => heightPairs values

/-- The depth of the deepest node below a list, none being at depth zero. -/
def heightItems : List Value → Nat
  | [] => 0
  | v :: rest => max (v.height + 1) (heightItems rest)

/-- The depth of the deepest node below a dictionary. -/
def heightPairs : Pairs → Nat
  | [] => 0
  | (_, v) :: rest => max (v.height + 1) (heightPairs rest)

end

/-! ## Building a dictionary -/

/-- The map that inserting the pairs in this order gives: `emplace` keeps the first
value of a key. -/
def dictOf (pairs : Pairs) : Pairs :=
  pairs.foldl (fun values pair => Keyed.emplace Prod.fst pair values) []

theorem foldl_emplace_of_keyed {values pairs : Pairs} (h : Keyed Prod.fst (values ++ pairs)) :
    pairs.foldl (fun values pair => Keyed.emplace Prod.fst pair values) values =
      values ++ pairs := by
  induction pairs generalizing values with
  | nil => simp
  | cons pair rest ih =>
    have happend : Keyed.emplace Prod.fst pair values = values ++ [pair] := by
      refine Keyed.emplace_append fun b hb => ?_
      exact (List.pairwise_append.mp h).2.2 b hb pair List.mem_cons_self
    rw [List.append_cons] at h
    rw [List.foldl_cons, happend, ih h, ← List.append_cons]

/-- Pairs in order are inserted one behind another. -/
theorem dictOf_of_keyed {pairs : Pairs} (h : Keyed Prod.fst pairs) : dictOf pairs = pairs :=
  foldl_emplace_of_keyed (show Keyed Prod.fst ([] ++ pairs) from h)

end Bencode

end BitTorrentClient
