import ContentImport.Json.Token
import ContentImport.Json.Value

/-!
JSON documents as written. The tree of a document keeps what its values drop: repeated members,
the digits of numbers, and strings that are no text. Reading a value out of it holds three further
limits, on nesting, on the size of numbers and on surrogates, which parts that nobody reads do not
have to meet.
-/

set_option autoImplicit false
set_option relaxedAutoImplicit false

namespace ContentImport.Json

open ContentImport.Number

/-- A document, or a part of one. A string that is no text is `none`. -/
inductive Written where
  | null
  | bool (b : Bool)
  | number (n : NumberText)
  | text (s : Option String)
  | list (items : List Written)
  | object (members : List (Option String × Written))
  deriving Repr

namespace Written

/-- A list or an object whose end is still to come; what it holds so far stands in reverse. -/
inductive Frame where
  | list (items : List Written)
  | object (members : List (Option String × Written)) (key : Option String)

/-- What the next token may be. -/
inductive State where
  /-- A value. -/
  | value (around : List Frame)
  /-- The first item of a list, or its end. -/
  | firstItem (around : List Frame)
  /-- The first key of an object, or its end. -/
  | firstKey (around : List Frame)
  /-- A key after a comma. -/
  | key (members : List (Option String × Written)) (around : List Frame)
  /-- The colon after a key. -/
  | colon (members : List (Option String × Written)) (key : Option String) (around : List Frame)
  /-- What follows a value. -/
  | done (value : Written) (around : List Frame)

def begin? (around : List Frame) : Token → Option State
  | .openList => some (.firstItem around)
  | .openObject => some (.firstKey around)
  | .null => some (.done .null around)
  | .bool b => some (.done (.bool b) around)
  | .number n => some (.done (.number n) around)
  | .string units => some (.done (.text ((StringUnit.joined? units).map String.ofList)) around)
  | _ => none

def step? : State → Token → Option State
  | .value around, token => begin? around token
  | .firstItem around, .closeList => some (.done (.list []) around)
  | .firstItem around, token => begin? (.list [] :: around) token
  | .firstKey around, .closeObject => some (.done (.object []) around)
  | .firstKey around, .string units =>
    some (.colon [] ((StringUnit.joined? units).map String.ofList) around)
  | .key members around, .string units =>
    some (.colon members ((StringUnit.joined? units).map String.ofList) around)
  | .colon members key around, .colon => some (.value (.object members key :: around))
  | .done v (.list items :: around), .comma => some (.value (.list (v :: items) :: around))
  | .done v (.list items :: around), .closeList =>
    some (.done (.list (v :: items).reverse) around)
  | .done v (.object members key :: around), .comma => some (.key ((key, v) :: members) around)
  | .done v (.object members key :: around), .closeObject =>
    some (.done (.object ((key, v) :: members).reverse) around)
  | _, _ => none

/-- The document that a text is, or `none` when it is none. -/
def ofText? (s : List Char) : Option Written := do
  let tokens ← Token.scan? s
  match ← tokens.foldlM step? (.value []) with
  | .done v [] => some v
  | _ => none

end Written

/-- The longest start of the digits that continues a number within 64 bits, and the digits left. -/
def absorbDigits (n : Nat) : List Char → Nat × List Char
  | [] => (n, [])
  | d :: ds =>
    let more := n * 10 + Text.digitValue d
    if more < Nat.pow 2 64 then absorbDigits more ds else (n, d :: ds)

/-- A number times a power of ten, where both are rounded first. A power beyond 308 overflows; one
below is divided out in steps. -/
def scaleByTen? (x : Binary64) (power : Int) : Option Binary64 :=
  if power < -308 then
    if x.significand = 0 then some x
    else do
      let step ← Binary64.ofDecimal? ⟨1, 308⟩
      let y ← x.div? step
      scaleByTen? y (power + 308)
  else if power < 0 then do
    let divisor ← Binary64.ofDecimal? ⟨1, -power⟩
    x.div? divisor
  else if power ≤ 308 then do
    let factor ← Binary64.ofDecimal? ⟨1, power⟩
    x.mul? factor
  else if x.significand = 0 then some x
  else none
termination_by power.natAbs
decreasing_by omega

/-- The exponent that digits give; `none` when it does not fit into 31 bits. -/
def exponentOf? (ds : List Char) : Option Nat :=
  ds.foldlM (fun n d =>
    let more := n * 10 + Text.digitValue d
    if more < Nat.pow 2 31 then some more else none) 0

/-- The value of a number. The first digits that fit into 64 bits are taken as a whole number, and
the digits after them only count places; a number that is no whole number of 64 bits is this whole
number, rounded, times a power of ten. `none` when it is too great. -/
def NumberText.number? (t : NumberText) : Option Number :=
  let (head, left) := absorbDigits 0 t.whole
  match left, t.fraction, t.exponent with
  | [], none, none =>
    if !t.negative then some (.whole head)
    else if 1 ≤ head ∧ head ≤ Nat.pow 2 63 then some (.whole (-head))
    else (Binary64.ofNat? head).map (.real true)
  | _, _, _ =>
    let fraction := t.fraction.getD []
    let (significand, dropped) := absorbDigits head fraction
    let places : Int := left.length - (fraction.length - dropped.length)
    let power : Option Int :=
      match t.exponent with
      | none => some places
      | some (negative, ds) =>
        match exponentOf? ds with
        | some e => some (if negative then places - e else places + e)
        | none => none
    match power with
    | some power =>
      ((Binary64.ofNat? significand).bind (scaleByTen? · power)).map (.real t.negative)
    | none =>
      if significand ≠ 0 ∧ t.exponent.any (!·.1) then none
      else some (.real t.negative Binary64.zero)

/-- The deepest nesting of lists and objects in a document that is read. -/
def maxNesting : Nat := 127

mutual

/-- The value of a part of a document, in which lists and objects may nest to a depth; `none` when
a limit is not met. The last member of a key counts. -/
def Written.value? (depth : Nat) : Written → Option Value
  | .null => some .null
  | .bool b => some (.bool b)
  | .number n => n.number?.map .number
  | .text s => s.map .text
  | .list items =>
    if depth = 0 then none else (itemValues? (depth - 1) items).map .list
  | .object members =>
    if depth = 0 then none
    else (memberValues? (depth - 1) members).map fun entries => .object (Table.ofEntries entries)

def itemValues? (depth : Nat) : List Written → Option (List Value)
  | [] => some []
  | item :: rest => do
    let v ← item.value? depth
    let vs ← itemValues? depth rest
    pure (v :: vs)

def memberValues? (depth : Nat) :
    List (Option String × Written) → Option (List (String × Value))
  | [] => some []
  | (key, member) :: rest => do
    let key ← key
    let v ← member.value? depth
    let vs ← memberValues? depth rest
    pure ((key, v) :: vs)

end

/-- The value that a text is, or `none` when it is none. -/
def Value.ofText? (s : List Char) : Option Value :=
  Written.ofText? s >>= Written.value? maxNesting

end ContentImport.Json
