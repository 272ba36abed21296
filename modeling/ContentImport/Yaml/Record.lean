import ContentImport.Yaml.Node

/-!
Reading values of known types out of YAML. Which value a scalar is follows from its text, its style
and its tag: only plain scalars are truth values or null, and all scalars are texts.
-/

set_option autoImplicit false
set_option relaxedAutoImplicit false

namespace ContentImport.Yaml

def boolTag : String := "tag:yaml.org,2002:bool"

def nullTag : String := "tag:yaml.org,2002:null"

def boolOfText? (text : String) : Option Bool :=
  if ["true", "True", "TRUE"].contains text then some true
  else if ["false", "False", "FALSE"].contains text then some false
  else none

def isNullText (text : String) : Bool :=
  ["null", "Null", "NULL", "~"].contains text

abbrev Reads (α : Type) := Document → Node → Option α

/-- Read a truth value: a plain scalar, or a literal one that is tagged so. -/
def readBool? : Reads Bool := fun doc node =>
  match doc.follow node with
  | .scalar tag text style =>
    if style = .plain || (style = .literal && tag = some boolTag) then boolOfText? text else none
  | _ => none

/-- Read a text, which every scalar is. -/
def readText? : Reads String := fun doc node =>
  match doc.follow node with
  | .scalar _ text _ => some text
  | _ => none

/-- Read a text or null. A plain scalar is null when it is empty or writes null; the tag of null
allows for nothing else, any other tag makes it a text. -/
def readOptionalText? : Reads (Option String) := fun doc node =>
  match doc.follow node with
  | .scalar tag text .plain =>
    match tag with
    | some tag =>
      if tag = nullTag then if isNullText text then some none else none else some (some text)
    | none => some (if text = "" || isNullText text then none else some text)
  | .scalar _ text _ => some (some text)
  | _ => none

/-- Read the name of a choice: the text of a scalar, or a local tag on a scalar that is null. -/
def readChoice? : Reads String := fun doc node =>
  match doc.follow node with
  | .scalar tag text style =>
    match tag.map String.toList with
    | some ('!' :: c :: rest) =>
      if style = .plain && (text = "" || isNullText text) then some (String.ofList (c :: rest))
      else none
    | _ => some text
  | _ => none

/-- Read the entries of a record by name; a plain scalar that is empty is a record without
entries. -/
def readEntries? : Reads (List (String × Node)) := fun doc node =>
  match doc.follow node with
  | .mapping entries => entries.mapM fun (key, value) => do
    let name ← readText? doc key
    pure (name, value)
  | .scalar _ text .plain => if text = "" then some [] else none
  | _ => none

/-- Read the entry of a name: the value of its own where there is none, and nothing where there are
two. -/
def readEntry? {α : Type} (doc : Document) (entries : List (String × Node)) (name : String)
    (ownValue : α) (read : Reads α) : Option α :=
  match entries.filter (·.1 = name) with
  | [] => some ownValue
  | [(_, node)] => read doc node
  | _ => none

end ContentImport.Yaml
