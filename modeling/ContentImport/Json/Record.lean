import ContentImport.Json.Written

/-!
Records with named fields in JSON. A record is given as an object by field name, where other keys
are ignored and a field given twice is refused, or as a list of its fields in their order.
-/

set_option autoImplicit false
set_option relaxedAutoImplicit false

namespace ContentImport.Json

/-- What is given for a field of a record. -/
inductive Slot (α : Type) where
  /-- A value. -/
  | given (value : α)
  /-- Nothing, in a record by field name. -/
  | unnamed
  /-- Nothing, in a list that ends before the field. -/
  | beyond
  deriving DecidableEq, Repr

/-- A part of a document that can be read as text, truth value, list or record. -/
class Readable (α : Type) where
  isNull : α → Bool
  text? : α → Option String
  bool? : α → Option Bool
  items? : α → Option (List α)
  /-- The members of an object, all of whose keys are texts. -/
  members? : α → Option (List (String × α))

instance : Readable Value where
  isNull := Value.isNull
  text? := Value.text?
  bool? := Value.bool?
  items? := Value.items?
  members?
    | .object members => some members
    | _ => none

instance : Readable Written where
  isNull
    | .null => true
    | _ => false
  text?
    | .text s => s
    | _ => none
  bool?
    | .bool b => some b
    | _ => none
  items?
    | .list items => some items
    | _ => none
  members?
    | .object members => members.mapM fun (key, v) => key.map (·, v)
    | _ => none

namespace Slot

variable {α β : Type}

/-- What a list gives for each field; `none` when it has more items than there are fields. -/
def ofItems? (names : List String) (items : List α) : Option (List (Slot α)) :=
  if items.length ≤ names.length then
    some (items.map .given ++ List.replicate (names.length - items.length) .beyond)
  else none

/-- What an object gives for a field; `none` when it gives it twice. -/
def ofMember? (members : List (String × α)) (name : String) : Option (Slot α) :=
  match members.filter (·.1 = name) with
  | [] => some .unnamed
  | [(_, v)] => some (.given v)
  | _ => none

/-- What a part of a document gives for each field of a record. -/
def ofRecord? [Readable α] (names : List String) (v : α) : Option (List (Slot α)) :=
  match Readable.items? v, Readable.members? v with
  | some items, _ => ofItems? names items
  | none, some members => names.mapM (ofMember? members)
  | none, none => none

def required (read : α → Option β) : Slot α → Option β
  | .given v => read v
  | _ => none

def optional [Readable α] (read : α → Option β) : Slot α → Option (Option β)
  | .given v => if Readable.isNull v then some none else (read v).map some
  | .unnamed => some none
  | .beyond => none

def defaulted (ownValue : β) (read : α → Option β) : Slot α → Option β
  | .given v => read v
  | _ => some ownValue

end Slot

def listOf? {α β : Type} [Readable α] (read : α → Option β) (v : α) : Option (List β) :=
  Readable.items? v >>= List.mapM read

end ContentImport.Json
