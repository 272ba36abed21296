import ContentImport.Number.Binary64
import ContentImport.Text.Blank
import ContentImport.Text.Digit

/-!
Sizes in bytes for human readers: a decimal number with a unit, decimal (`1.5 KB`) or binary
(`1 KiB`). The number is built up digit by digit in binary64 arithmetic, each step rounded.
-/

set_option autoImplicit false
set_option relaxedAutoImplicit false

namespace ContentImport

open ContentImport.Number

/-- Why a text gives no size. -/
inductive ByteSizeFault where
  /-- It is no number with a unit. -/
  | malformed
  /-- The size has more than 64 bits. -/
  | tooLarge
  deriving DecidableEq, Repr

namespace ByteSize

/-- A number that may have grown beyond every finite one. -/
abbrev Quantity := Option Binary64

def digit (c : Char) : Binary64 :=
  (Binary64.ofNat? (Text.digitValue c)).getD Binary64.zero

def ten : Binary64 :=
  (Binary64.ofNat? 10).getD Binary64.zero

def appendDigit (value : Quantity) (c : Char) : Quantity :=
  value >>= (·.mul? ten) >>= (·.add? (digit c))

/-- The number that the digits before the point give. -/
def wholePart (ds : List Char) : Quantity :=
  ds.foldl appendDigit (some Binary64.zero)

/-- Put digits after the point, the first one at a given place value. -/
def addFraction (value place : Quantity) : List Char → Quantity
  | [] => value
  | d :: ds =>
    let share := place >>= (digit d).mul?
    let sum := do (← value).add? (← share)
    addFraction sum (place >>= (·.div? ten)) ds

/-- How many bytes a unit stands for. -/
def unit? (name : List Char) : Option Nat :=
  let power := fun (letter : Char) => ['K', 'M', 'G', 'T', 'P', 'E', 'Z'].idxOf? letter
  match name.map Char.toUpper with
  | [] => some 1
  | ['B'] => some 1
  | [c] | [c, 'B'] => (power c).map fun i => Nat.pow 1000 (i + 1)
  | [c, 'I'] | [c, 'I', 'B'] => (power c).map fun i => Nat.pow 1024 (i + 1)
  | _ => none

def split? (s : List Char) : Option (Quantity × List Char) :=
  let whole := s.takeWhile Char.isDigit
  if whole.isEmpty then none
  else
    match s.dropWhile Char.isDigit with
    | '.' :: rest =>
      let fraction := rest.takeWhile Char.isDigit
      if fraction.isEmpty then none
      else
        some (addFraction (wholePart whole) (Binary64.nearest? 1 10) fraction,
          (rest.dropWhile Char.isDigit).dropWhile (· == ' '))
    | rest => some (wholePart whole, rest.dropWhile (· == ' '))

/-- The number of bytes that a text gives. -/
def ofText (s : String) : Except ByteSizeFault Nat :=
  match split? (Text.trimBy Text.isSpace s.toList) with
  | none => .error .malformed
  | some (value, name) =>
    match unit? name with
    | none => .error .malformed
    | some unit =>
      match (do (← value).mul? (← Binary64.ofNat? unit)) with
      | none => .error .tooLarge
      | some size => if size.floor < Nat.pow 2 64 then .ok size.floor else .error .tooLarge

example : (ofText "4.35KB").toOption = some 4350 := by decide +kernel
example : (ofText " 1 kib ").toOption = some 1024 := by decide +kernel
example : (ofText "16EiB").toOption = none := by decide +kernel
example : (ofText "1.").toOption = none := by decide +kernel

end ByteSize

end ContentImport
