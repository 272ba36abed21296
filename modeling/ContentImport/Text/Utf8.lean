/-!
UTF-8, read one byte at a time. The bytes become units: a character, or the mark of an ill-formed
run of bytes. A run ends at the first byte that cannot continue it, so each ill-formed run is a
longest one, and a lenient reader shows it as one replacement character.
-/

set_option autoImplicit false
set_option relaxedAutoImplicit false

namespace ContentImport.Text.Utf8

/-- A character whose first bytes were read: the bits so far, how many bytes are still owed, and
the range the next one has to lie in. -/
structure Partial where
  bits : Nat
  owed : Nat
  low : Nat
  high : Nat
  deriving DecidableEq, Repr

/-- What a first byte begins. -/
inductive Lead where
  /-- A whole character of one byte. -/
  | whole (c : Char)
  /-- The first of several bytes. -/
  | opened (p : Partial)
  /-- A byte that begins no character. -/
  | illFormed

def lead (b : UInt8) : Lead :=
  let n := b.toNat
  if n ≤ 0x7F then .whole (Char.ofNat n)
  else if n < 0xC2 then .illFormed
  else if n ≤ 0xDF then .opened ⟨n - 0xC0, 1, 0x80, 0xBF⟩
  else if n = 0xE0 then .opened ⟨0, 2, 0xA0, 0xBF⟩
  else if n = 0xED then .opened ⟨0xD, 2, 0x80, 0x9F⟩
  else if n ≤ 0xEF then .opened ⟨n - 0xE0, 2, 0x80, 0xBF⟩
  else if n = 0xF0 then .opened ⟨0, 3, 0x90, 0xBF⟩
  else if n ≤ 0xF3 then .opened ⟨n - 0xF0, 3, 0x80, 0xBF⟩
  else if n = 0xF4 then .opened ⟨4, 3, 0x80, 0x8F⟩
  else .illFormed

/-- The units of a byte sequence, after the bytes of an unfinished character. `none` marks an
ill-formed run. -/
def unitsFrom : Option Partial → List UInt8 → List (Option Char)
  | none, [] => []
  | some _, [] => [none]
  | none, b :: rest =>
    match lead b with
    | .whole c => some c :: unitsFrom none rest
    | .opened p => unitsFrom (some p) rest
    | .illFormed => none :: unitsFrom none rest
  | some p, b :: rest =>
    if p.low ≤ b.toNat ∧ b.toNat ≤ p.high then
      let bits := p.bits * 64 + (b.toNat - 0x80)
      if p.owed ≤ 1 then some (Char.ofNat bits) :: unitsFrom none rest
      else unitsFrom (some ⟨bits, p.owed - 1, 0x80, 0xBF⟩) rest
    else
      match lead b with
      | .whole c => none :: some c :: unitsFrom none rest
      | .opened q => none :: unitsFrom (some q) rest
      | .illFormed => none :: none :: unitsFrom none rest

def units (bytes : List UInt8) : List (Option Char) :=
  unitsFrom none bytes

/-- The text of a byte sequence, each ill-formed run shown as U+FFFD. -/
def decodeLenient (bytes : List UInt8) : List Char :=
  (units bytes).map (·.getD '\uFFFD')

/-- The text of a byte sequence, or `none` when a part of it is ill-formed. -/
def decode? (bytes : List UInt8) : Option (List Char) :=
  (units bytes).mapM id

example : decode? [0x61, 0xC3, 0xA9, 0xF0, 0x9F, 0x98, 0x80] = some ['a', 'é', '😀'] := by decide
example : decodeLenient [0xE2, 0x82, 0x61, 0xFF] = ['\uFFFD', 'a', '\uFFFD'] := by decide

end ContentImport.Text.Utf8
