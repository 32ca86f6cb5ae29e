/-
  Core/Failure.lean --- how a call can fail to return.

  Two kinds are kept apart.  A `StdException` is thrown by the code and can be
  caught by its caller.  A `Fault` is a step the language gives no meaning to: an
  unchecked index past the end of a vector or a string view, a division by zero,
  a failed assertion.  No theorem about a returned value ever covers a fault.
-/
import Mathlib.Algebra.Group.Nat.Defs
import Mathlib.Data.List.Basic

set_option autoImplicit false

namespace BitTorrentClient

/-- The octets the client reads, stores and sends. -/
abbrev Bytes := List UInt8

/-- The standard exceptions the client throws, with their texts. -/
inductive StdException where
  | invalidArgument (what : String)
  | outOfRange (what : String)
  | runtimeError (what : String)
  deriving DecidableEq, Repr, Inhabited

/-- A step without a meaning in the language. -/
inductive Fault where
  /-- an unchecked index is not below the size -/
  | outOfRange
  /-- the divisor is zero -/
  | divisionByZero
  /-- an assertion does not hold -/
  | assertion
  deriving DecidableEq, Repr, Inhabited

/-- How a call that may not end does not return. -/
inductive Stop where
  /-- an exception leaves the call -/
  | throws (e : StdException)
  /-- a step has no meaning -/
  | fault (f : Fault)
  /-- the fuel of the model is used up -/
  | unfinished
  deriving DecidableEq, Repr, Inhabited

/-- The value a 32-bit unsigned integer keeps. -/
def u32 (n : Nat) : Nat := n % 2 ^ 32

/-- The value a 64-bit unsigned integer keeps. -/
def u64 (n : Nat) : Nat := n % 2 ^ 64

theorem u32_of_lt {n : Nat} (h : n < 2 ^ 32) : u32 n = n := Nat.mod_eq_of_lt h

theorem u64_of_lt {n : Nat} (h : n < 2 ^ 64) : u64 n = n := Nat.mod_eq_of_lt h

theorem u32_lt (n : Nat) : u32 n < 2 ^ 32 := Nat.mod_lt _ (by decide)

theorem u32_le (n : Nat) : u32 n ≤ n := Nat.mod_le _ _

section Indexing

variable {α : Type}

/-- The unchecked read `xs[i]`. -/
def readAt (xs : List α) (i : Nat) : Except Fault α :=
  match xs[i]? with
  | some x => .ok x
  | none => .error .outOfRange

/-- The unchecked write `xs[i] = x`. -/
def writeAt (xs : List α) (i : Nat) (x : α) : Except Fault (List α) :=
  if i < xs.length then .ok (xs.set i x) else .error .outOfRange

theorem readAt_eq_ok {xs : List α} {i : Nat} {x : α} :
    readAt xs i = .ok x ↔ xs[i]? = some x := by
  unfold readAt
  cases xs[i]? <;> simp

theorem writeAt_eq_ok {xs ys : List α} {i : Nat} {x : α} :
    writeAt xs i x = .ok ys ↔ i < xs.length ∧ ys = xs.set i x := by
  unfold writeAt
  split
  · rename_i hlt
    simp [hlt, eq_comm]
  · rename_i hge
    simp [hge]

end Indexing

/-! ## Sequencing

A bind that succeeded splits into two steps that succeeded. -/

theorem bind_eq_ok {ε α β : Type} {x : Except ε α} {f : α → Except ε β} {b : β} :
    x >>= f = .ok b ↔ ∃ a, x = .ok a ∧ f a = .ok b := by
  cases x with
  | error e => simp [bind, Except.bind]
  | ok a => simp [bind, Except.bind]

/-- Renaming the error makes nothing succeed. -/
theorem mapError_eq_ok {ε ε' α : Type} {x : Except ε α} {f : ε → ε'} {a : α} :
    x.mapError f = .ok a ↔ x = .ok a := by
  cases x with
  | error e => simp [Except.mapError]
  | ok b => simp [Except.mapError]

/-- Steps that all succeed succeed together. -/
theorem mapM_ok {α β ε : Type} {f : α → Except ε β} {g : α → β} {l : List α}
    (h : ∀ a ∈ l, f a = .ok (g a)) : l.mapM f = .ok (l.map g) := by
  induction l with
  | nil => rfl
  | cons a rest ih =>
    rw [List.mapM_cons, h a List.mem_cons_self, ih fun b hb => h b (List.mem_cons_of_mem a hb)]
    rfl

end BitTorrentClient
