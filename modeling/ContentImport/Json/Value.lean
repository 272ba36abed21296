import ContentImport.Number.Binary64
import ContentImport.Table

/-!
JSON values. Whole numbers of 64 bits are kept as they are; every other number is a binary64
number with a sign, so that negative zero is one of them.
-/

set_option autoImplicit false
set_option relaxedAutoImplicit false

namespace ContentImport.Json

open ContentImport.Number

/-- A number. -/
inductive Number where
  | whole (n : Int)
  | real (negative : Bool) (magnitude : Binary64)
  deriving DecidableEq, Repr

/-- A value. The members of an object read from text are a table by key. -/
inductive Value where
  | null
  | bool (b : Bool)
  | number (n : Number)
  | text (s : String)
  | list (items : List Value)
  | object (members : List (String × Value))
  deriving Repr

namespace Value

def ofOption {α : Type} (value : α → Value) : Option α → Value
  | none => .null
  | some a => value a

def nat (n : Nat) : Value :=
  .number (.whole n)

def texts (items : List String) : Value :=
  .list (items.map .text)

def member? (v : Value) (key : String) : Option Value :=
  match v with
  | .object members => Table.get? members key
  | _ => none

def isNull : Value → Bool
  | .null => true
  | _ => false

def text? : Value → Option String
  | .text s => some s
  | _ => none

def bool? : Value → Option Bool
  | .bool b => some b
  | _ => none

def items? : Value → Option (List Value)
  | .list items => some items
  | _ => none

end Value

end ContentImport.Json
