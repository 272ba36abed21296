import ContentImport.Markup.Token

/-!
The attributes of a start tag: names and quoted values. Reading stops at the first thing that is no
attribute; what came before it is kept.
-/

set_option autoImplicit false
set_option relaxedAutoImplicit false

namespace ContentImport.Markup

/-- A name and the bytes between the quotation marks. -/
structure Attribute where
  key : Bytes
  value : Bytes
  deriving DecidableEq, Repr

namespace Attribute

/-- What is being read. Bytes stand in reverse. -/
inductive Mode where
  | between
  | key (read : Bytes)
  /-- Blanks after a name. -/
  | equals (key : Bytes)
  /-- Blanks before a value. -/
  | quote (key : Bytes)
  | value (key : Bytes) (quote : UInt8) (read : Bytes)
  deriving Repr

/-- Read one byte; where an attribute ends, it is given. The first byte of a name may be any. -/
def step (mode : Mode) (b : UInt8) : Except Fault (Option Attribute × Mode) :=
  match mode with
  | .between => if isBlank b then .ok (none, .between) else .ok (none, .key [b])
  | .key read =>
    if b = byte '=' then .ok (none, .quote read.reverse)
    else if isBlank b then .ok (none, .equals read.reverse)
    else .ok (none, .key (b :: read))
  | .equals key =>
    if isBlank b then .ok (none, .equals key)
    else if b = byte '=' then .ok (none, .quote key)
    else .error .malformedAttribute
  | .quote key =>
    if isBlank b then .ok (none, .quote key)
    else if b = byte '"' ∨ b = byte '\'' then .ok (none, .value key b [])
    else .error .malformedAttribute
  | .value key quote read =>
    if b = quote then .ok (some ⟨key, read.reverse⟩, .between)
    else .ok (none, .value key quote (b :: read))

/-- The attributes in the bytes after the name of a tag, from a mode on. -/
def scanFrom : Mode → Bytes → Sequence Attribute
  | .between, [] => ⟨[], none⟩
  | _, [] => ⟨[], some .malformedAttribute⟩
  | mode, b :: rest =>
    match step mode b with
    | .ok (found, mode) => (scanFrom mode rest).put? found
    | .error fault => ⟨[], some fault⟩

def scan (bytes : Bytes) : Sequence Attribute :=
  scanFrom .between bytes

/-- The attributes in the bytes after the name of a tag, where all of them can be read and no name
occurs twice. -/
def all (bytes : Bytes) : Except Fault (List Attribute) :=
  let found := scan bytes
  if (found.items.map (·.key)).Nodup then
    match found.fault with
    | none => .ok found.items
    | some fault => .error fault
  else .error .repeatedAttribute

example : scan (ascii " a = '1'b=\"2\" c") =
    ⟨[⟨ascii "a", ascii "1"⟩, ⟨ascii "b", ascii "2"⟩], some .malformedAttribute⟩ := by
  decide +kernel

end Attribute

end ContentImport.Markup
