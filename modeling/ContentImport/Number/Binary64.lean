/-!
Finite binary64 magnitudes in exact arithmetic: rounding a quotient to the nearest one, the sum,
product and quotient of two, and the shortest decimal that rounds back to one.
-/

set_option autoImplicit false
set_option relaxedAutoImplicit false

namespace ContentImport.Number

/-- A finite binary64 number without its sign, of value `significand * 2 ^ exponent`. -/
structure Binary64 where
  significand : Nat
  exponent : Int
  deriving DecidableEq, Repr

/-- A decimal number without its sign, of value `digits * 10 ^ exponent`. -/
structure Decimal where
  digits : Nat
  exponent : Int
  deriving DecidableEq, Repr

/-- Divide and round to the nearest whole number, a half to the even neighbour. -/
def divideToNearestEven (num den : Nat) : Nat :=
  let quotient := num / den
  let twice := 2 * (num % den)
  if twice > den || (twice == den && quotient % 2 == 1) then quotient + 1 else quotient

namespace Binary64

def zero : Binary64 := ⟨0, -1074⟩

/-- The least exponent with which a number near the quotient has no more than 53 bits. -/
def scaleOf (num den : Nat) : Int :=
  let guess : Int := (Nat.log2 num : Int) - Nat.log2 den - 52
  let short : Bool := num * Nat.pow 2 (-guess).toNat < den * Nat.pow 2 (guess.toNat + 52)
  max (-1074) (if short then guess - 1 else guess)

/-- The number nearest to a quotient, a tie going to the even significand; `none` when that lies
beyond the greatest number. -/
def nearest? (num den : Nat) : Option Binary64 :=
  if num = 0 then some zero
  else
    let scale := scaleOf num den
    let significand := divideToNearestEven (num * Nat.pow 2 (-scale).toNat)
      (den * Nat.pow 2 scale.toNat)
    let rounded : Binary64 :=
      if significand < Nat.pow 2 53 then ⟨significand, scale⟩ else ⟨Nat.pow 2 52, scale + 1⟩
    if rounded.exponent ≤ 971 then some rounded else none

def numerator (x : Binary64) : Nat :=
  x.significand * Nat.pow 2 x.exponent.toNat

def denominator (x : Binary64) : Nat :=
  Nat.pow 2 (-x.exponent).toNat

def ofNat? (n : Nat) : Option Binary64 :=
  nearest? n 1

def add? (x y : Binary64) : Option Binary64 :=
  nearest? (x.numerator * y.denominator + y.numerator * x.denominator)
    (x.denominator * y.denominator)

def mul? (x y : Binary64) : Option Binary64 :=
  nearest? (x.numerator * y.numerator) (x.denominator * y.denominator)

/-- The rounded quotient by a number other than zero. -/
def div? (x y : Binary64) : Option Binary64 :=
  nearest? (x.numerator * y.denominator) (x.denominator * y.numerator)

def floor (x : Binary64) : Nat :=
  x.numerator / x.denominator

def ofDecimal? (d : Decimal) : Option Binary64 :=
  nearest? (d.digits * Nat.pow 10 d.exponent.toNat) (Nat.pow 10 (-d.exponent).toNat)

/-- How many decimal digits stand before the point; less than one counts the zeros after it. -/
def magnitude (x : Binary64) : Int :=
  let width := fun n : Nat => (Nat.toDigits 10 n).length
  if x.denominator ≤ x.numerator then width (x.numerator / x.denominator)
  else
    let zeros := width (x.denominator / x.numerator)
    if x.denominator ≤ x.numerator * Nat.pow 10 (zeros - 1) then 2 - zeros else 1 - zeros

/-- The decimal of `count` digits that lies nearest among those that round to the number; a tie
goes to the even digit. -/
def decimalOfLength? (x : Binary64) (count : Nat) : Option Decimal :=
  let unit := x.magnitude - count
  let num := x.numerator * Nat.pow 10 (-unit).toNat
  let den := x.denominator * Nat.pow 10 unit.toNat
  let below := num / den
  let nearer := divideToNearestEven num den
  let farther := if nearer = below then below + 1 else below
  [nearer, farther].findSome? fun digits =>
    if ofDecimal? ⟨digits, unit⟩ = some x then some ⟨digits, unit⟩ else none

def dropZeros : Nat → Decimal → Decimal
  | 0, d => d
  | fuel + 1, d => if d.digits % 10 = 0 then dropZeros fuel ⟨d.digits / 10, d.exponent + 1⟩ else d

/-- The decimal with the fewest digits that rounds to the number, the nearest one of those. -/
def shortest (x : Binary64) : Decimal :=
  if x.significand = 0 then ⟨0, 0⟩
  else
    match (List.range' 1 17).findSome? x.decimalOfLength? with
    | some d => dropZeros 17 d
    | none => ⟨x.significand, x.exponent⟩

end Binary64

/-- How a decimal is written out. -/
structure DecimalStyle where
  /-- The most digits before the point in positional notation. -/
  widest : Int
  /-- The most zeros between the point and the first digit in positional notation. -/
  smallest : Int
  /-- What stands for the fraction of a whole number in positional notation. -/
  wholeFraction : String
  /-- The sign of the power of ten. -/
  power : String

def DecimalStyle.write (style : DecimalStyle) (d : Decimal) : String :=
  let digits := Nat.toDigits 10 d.digits
  let point : Int := digits.length + d.exponent
  let zeros := fun n : Int => List.replicate n.toNat '0'
  if 0 ≤ d.exponent ∧ point ≤ style.widest then
    String.ofList (digits ++ zeros d.exponent) ++ style.wholeFraction
  else if 0 < point ∧ point ≤ style.widest then
    String.ofList (digits.take point.toNat ++ '.' :: digits.drop point.toNat)
  else if -style.smallest ≤ point ∧ point ≤ 0 then
    String.ofList ('0' :: '.' :: (zeros (-point) ++ digits))
  else
    let fraction := if digits.length = 1 then [] else '.' :: digits.drop 1
    String.ofList (digits.take 1 ++ fraction) ++ style.power ++ toString (point - 1)

example : Binary64.nearest? 1 10 = some ⟨0x1999999999999a, -56⟩ := by decide +kernel
example : (Binary64.nearest? 1 10).map Binary64.shortest = some ⟨1, -1⟩ := by decide +kernel
example : Binary64.shortest ⟨1, -1074⟩ = ⟨5, -324⟩ := by decide +kernel
example : Binary64.nearest? (Nat.pow 2 1024) 1 = none := by decide +kernel

end ContentImport.Number
