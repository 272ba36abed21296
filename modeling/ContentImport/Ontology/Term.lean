import ContentImport.Calendar
import ContentImport.Ontology.Names

/-!
Terms: the resources and literals that statements are about, and the text a literal gives to a
field.
-/

set_option autoImplicit false
set_option relaxedAutoImplicit false

namespace ContentImport.Ontology

/-- A literal value with the datatype and the language that it may have. -/
structure Literal where
  value : String
  datatype : Option Iri
  language : Option String
  deriving DecidableEq

def Literal.plain (value : String) : Literal :=
  ⟨value, none, none⟩

/-- Whether a text begins with the mark of an inline datatype: two carets, after a quotation mark
or not. -/
def opensTypeSuffix : List Char → Bool
  | '"' :: '^' :: '^' :: _ => true
  | '^' :: '^' :: _ => true
  | _ => false

/-- The part of a text before its inline datatype. The datatype begins at the first mark that no
line feed follows, and reaches to the end. -/
def withoutTypeSuffix : List Char → List Char
  | [] => []
  | c :: rest =>
    if opensTypeSuffix (c :: rest) && !rest.contains '\n' then []
    else c :: withoutTypeSuffix rest

def stripTypeSuffix (s : String) : String :=
  String.ofList (withoutTypeSuffix s.toList)

example : withoutTypeSuffix "42\"^^xsd:integer".toList = "42".toList := by decide
example : withoutTypeSuffix "a^^b\nc^^d".toList = "a^^b\nc".toList := by decide

/-- The text that a literal gives to a field: of a time stamp the date, of anything else the value
without its inline datatype. -/
def Literal.fieldText (l : Literal) : String :=
  let date :=
    if l.datatype = some xsdDateTime then Date.ofText? (Text.trimBy Text.isSpace l.value.toList)
    else none
  match date with
  | some date => String.ofList date.toText
  | none => stripTypeSuffix l.value

/-- The object of a statement. -/
inductive Term where
  | resource (iri : Iri)
  | literal (l : Literal)
  deriving DecidableEq

namespace Term

def resource? : Term → Option Iri
  | .resource iri => some iri
  | .literal _ => none

def literal? : Term → Option Literal
  | .resource _ => none
  | .literal l => some l

/-- The text of a term: the IRI of a resource, the value of a literal. -/
def lexical : Term → String
  | .resource iri => iri.text
  | .literal l => l.value

/-- Whether two terms are the same resource, or literals with the same text. -/
def sameValue : Term → Term → Bool
  | .resource a, .resource b => a = b
  | .literal a, .literal b => a.value = b.value
  | _, _ => false

theorem sameValue_refl (t : Term) : t.sameValue t = true := by
  cases t <;> simp [sameValue]

theorem sameValue_comm (s t : Term) : s.sameValue t = t.sameValue s := by
  cases s <;> cases t <;> simp [sameValue, eq_comm]

end Term

end ContentImport.Ontology
