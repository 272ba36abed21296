import ContentImport.Json.Value

/-!
Writing JSON values: on one line without spaces, or over lines with two spaces for each level.
-/

set_option autoImplicit false
set_option relaxedAutoImplicit false

namespace ContentImport.Json

open ContentImport.Number

/-- Numbers are written positionally from five places after the point up to sixteen digits before
it, with a digit on either side of the point. -/
def decimalStyle : DecimalStyle := ⟨16, 4, ".0", "e"⟩

def Number.toText : Number → String
  | .whole n => toString n
  | .real negative x =>
    let size := if x.significand = 0 then "0.0" else decimalStyle.write x.shortest
    if negative then "-" ++ size else size

/-- The escape of a character within a string, where it needs one. -/
def escape? (c : Char) : Option (List Char) :=
  if c = '"' then some ['\\', '"']
  else if c = '\\' then some ['\\', '\\']
  else if c = '\n' then some ['\\', 'n']
  else if c = '\r' then some ['\\', 'r']
  else if c = '\t' then some ['\\', 't']
  else if c = '\x08' then some ['\\', 'b']
  else if c = '\x0c' then some ['\\', 'f']
  else if c.toNat < 0x20 then
    some ['\\', 'u', '0', '0', Nat.digitChar (c.toNat / 16), Nat.digitChar (c.toNat % 16)]
  else none

def quote (s : String) : String :=
  String.ofList ('"' :: s.toList.flatMap (fun c => (escape? c).getD [c]) ++ ['"'])

/-- Where values are written: what opens and closes a level, and what stands between. -/
structure Layout where
  /-- The break before an item, at a level. -/
  lineBreak : Nat → String
  /-- What stands between a key and its value. -/
  colon : String

def Layout.compact : Layout := ⟨fun _ => "", ":"⟩

def Layout.indented : Layout :=
  ⟨fun level => "\n" ++ String.ofList (List.replicate (2 * level) ' '), ": "⟩

mutual

def Value.toTextAt (layout : Layout) (level : Nat) : Value → String
  | .null => "null"
  | .bool b => if b then "true" else "false"
  | .number n => n.toText
  | .text s => quote s
  | .list [] => "[]"
  | .list (item :: rest) =>
    "[" ++ layout.lineBreak (level + 1) ++ item.toTextAt layout (level + 1) ++
      moreItems layout (level + 1) rest ++ layout.lineBreak level ++ "]"
  | .object [] => "\x7b\x7d"
  | .object ((key, v) :: rest) =>
    "\x7b" ++ layout.lineBreak (level + 1) ++ quote key ++ layout.colon ++
      v.toTextAt layout (level + 1) ++ moreMembers layout (level + 1) rest ++
      layout.lineBreak level ++ "\x7d"

def moreItems (layout : Layout) (level : Nat) : List Value → String
  | [] => ""
  | item :: rest =>
    "," ++ layout.lineBreak level ++ item.toTextAt layout level ++ moreItems layout level rest

def moreMembers (layout : Layout) (level : Nat) : List (String × Value) → String
  | [] => ""
  | (key, v) :: rest =>
    "," ++ layout.lineBreak level ++ quote key ++ layout.colon ++ v.toTextAt layout level ++
      moreMembers layout level rest

end

def Value.toText (v : Value) : String :=
  v.toTextAt .compact 0

def Value.toLines (v : Value) : String :=
  v.toTextAt .indented 0

example : Value.toText (.object [("a\n", .list [.nat 1, .null]), ("b", .object [])]) =
    "\x7b\"a\\n\":[1,null],\"b\":\x7b\x7d\x7d" := by decide +kernel

end ContentImport.Json
