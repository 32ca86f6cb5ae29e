/-
  Core/Bencode/Parser.lean --- the recursive-descent parser
  (`core/bencode_parser.cpp`).

  The functions of `detail` take the data, a position and, where they can nest, a
  depth, and return a value with the position behind it.  Nothing bounds the loops
  of `parseList` and `parseDict`, so `parse` takes fuel: it is handed to the nested
  calls and bounds the turns of each loop.

  Positions are at most the size of the data, which fits 64 bits, so the only sum
  that can wrap is that of a position and a length read from the data.
-/
import BitTorrentClient.Core.Bencode.Value
import BitTorrentClient.Library.ByteRange
import BitTorrentClient.Library.Loop

set_option autoImplicit false

namespace BitTorrentClient.Bencode

open Library

/-- Throw an exception. -/
def throwing {α : Type} (e : StdException) : Except Stop α := .error (.throws e)

/-! ## The standard library -/

/-- `data[pos]`. -/
def charAt (data : Bytes) (pos : Nat) : Except Stop UInt8 :=
  match data[pos]? with
  | some c => .ok c
  | none => .error (.fault .outOfRange)

/-- `data.find(c, pos)`, where `none` is `npos`. -/
def find (data : Bytes) (c : UInt8) (pos : Nat) : Option Nat :=
  ((data.drop pos).findIdx? fun b => b == c).map fun i => pos + i

/-- The characters `std::isspace` accepts. -/
def isSpace (b : UInt8) : Bool := b == 32 || decide (9 ≤ b.toNat ∧ b.toNat ≤ 13)

/-- What `strtoul` and `strtoll` make of a string: the sign, and the digits up to the
first character that is none. -/
def splitNumeral (s : Bytes) : Bool × Bytes :=
  match s.dropWhile isSpace with
  | [] => (false, [])
  | c :: rest =>
      if c = minusSign then (true, rest.takeWhile isDigit)
      else if c = plusSign then (false, rest.takeWhile isDigit)
      else (false, (c :: rest).takeWhile isDigit)

/-- `std::stoul` in base ten.  A minus sign negates modulo 2^64. -/
def stoul (s : Bytes) : Except StdException Nat :=
  let (negative, digits) := splitNumeral s
  if digits.isEmpty then .error (.invalidArgument "stoul")
  else if 2 ^ 64 ≤ decimalValue digits then .error (.outOfRange "stoul")
  else .ok (if negative then u64 (2 ^ 64 - decimalValue digits) else decimalValue digits)

/-- `std::stoll` in base ten. -/
def stoll (s : Bytes) : Except StdException Int64 :=
  let (negative, digits) := splitNumeral s
  let n : Int := if negative then - decimalValue digits else decimalValue digits
  if digits.isEmpty then .error (.invalidArgument "stoll")
  else if n < - 2 ^ 63 ∨ 2 ^ 63 ≤ n then .error (.outOfRange "stoll")
  else .ok (Int64.ofInt n)

namespace Detail

/-- Hard limit for nested container depth. -/
def maxRecursionDepth : Nat := 1000

/-- The text thrown when the limit is exceeded. -/
def depthLimitExceeded : StdException :=
  .runtimeError "Bencode recursion depth limit exceeded"

/-- Whether `s` is a valid integer payload. -/
def isValidBencodeInt (s : Bytes) : Bool :=
  if s.isEmpty then false
  else if s[0]? = some minusSign ∧ (s.length = 1 ∨ s[1]? = some (digit 0)) then false
  else
    -- the first character to check
    let i := if s[0]? = some minusSign then 1 else 0
    if s[i]? = some (digit 0) ∧ i + 1 < s.length then false
    else (s.drop i).all isDigit

/-- Advance over an expected character. -/
def expectChar (data : Bytes) (pos : Nat) (expected : UInt8) : Except Stop Nat :=
  if data[pos]? = some expected then .ok (pos + 1)
  else
    let name := String.singleton (Char.ofNat expected.toNat)
    throwing (.invalidArgument ("Expected '" ++ name ++ "'"))

/-- An integer. -/
def parseInt (data : Bytes) (pos : Nat) : Except Stop (Value × Nat) := do
  let c ← charAt data pos
  if c ≠ intStart then throwing (.invalidArgument "Expected int")
  else
    let pos := pos + 1
    match find data endMark pos with
    | none => throwing (.invalidArgument "Bad int")
    | some e =>
        let num := slice data pos (e - pos)
        if !isValidBencodeInt num then throwing (.invalidArgument "Bad int")
        else
          match stoll num with
          | .error x => throwing x
          | .ok n => pure (.int n, e + 1)

/-- A string.  The bounds check adds modulo 2^64, and `substr` takes as much as
there is. -/
def parseString (data : Bytes) (pos : Nat) : Except Stop (Value × Nat) :=
  match find data colonMark pos with
  | none => throwing (.invalidArgument "Bad string")
  | some colon =>
      match stoul (slice data pos (colon - pos)) with
      | .error x => throwing x
      | .ok len =>
          let pos := colon + 1
          if u64 (pos + len) > data.length then throwing (.invalidArgument "OOB")
          else .ok (.str (slice data pos len), u64 (pos + len))

/-- The condition of both container loops. -/
def moreItems (data : Bytes) (pos : Nat) : Bool :=
  match data[pos]? with
  | some c => c != endMark
  | none => false

section Containers

-- `parse` with less fuel
variable (parse : Nat → Nat → Except Stop (Value × Nat))

/-- One turn of the loop of `parseList`. -/
def listTurn (depth : Nat) (s : List Value × Nat) : Except Stop (List Value × Nat) := do
  let (v, pos) ← parse s.2 (depth + 1)
  pure (s.1 ++ [v], pos)

/-- A list. -/
def parseList (turns : Nat) (data : Bytes) (pos depth : Nat) : Except Stop (Value × Nat) := do
  let pos ← expectChar data pos listId
  let (values, pos) ← whileLoop .unfinished (fun s => moreItems data s.2)
    (listTurn parse depth) turns ([], pos)
  let pos ← expectChar data pos endMark
  pure (.list values, pos)

/-- One turn of the loop of `parseDict`. -/
def dictTurn (data : Bytes) (depth : Nat) (s : Pairs × Nat) : Except Stop (Pairs × Nat) := do
  let (keyVal, pos) ← parseString data s.2
  match keyVal with
  | .str key => do
      let (v, pos) ← parse pos (depth + 1)
      pure (Keyed.emplace Prod.fst (key, v) s.1, pos)
  | _ => throwing (.invalidArgument "Dict key must be a string")

/-- A dictionary. -/
def parseDict (turns : Nat) (data : Bytes) (pos depth : Nat) : Except Stop (Value × Nat) := do
  let pos ← expectChar data pos dictId
  let (values, pos) ← whileLoop .unfinished (fun s => moreItems data s.2)
    (dictTurn parse data depth) turns ([], pos)
  let pos ← expectChar data pos endMark
  pure (.dict values, pos)

end Containers

/-- Dispatch on the next character. -/
def parse (data : Bytes) : Nat → Nat → Nat → Except Stop (Value × Nat)
  | 0, _, _ => .error .unfinished
  | fuel + 1, pos, depth =>
      if data.isEmpty then throwing (.invalidArgument "Empty data")
      else if depth > maxRecursionDepth then throwing depthLimitExceeded
      else do
        let firstChar ← charAt data pos
        if firstChar = intStart then parseInt data pos
        else if isDigit firstChar then parseString data pos
        else if firstChar = listStart then parseList (parse data fuel) fuel data pos depth
        else if firstChar = dictStart then parseDict (parse data fuel) fuel data pos depth
        else throwing (.invalidArgument "Invalid bencode data")

end Detail

/-- Parse a full payload.  The position behind the value is dropped. -/
def parse (fuel : Nat) (data : Bytes) : Except Stop Value := do
  let (v, _) ← Detail.parse data fuel 0 0
  pure v

end BitTorrentClient.Bencode
