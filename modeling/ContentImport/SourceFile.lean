import ContentImport.PathName
import ContentImport.Text.Utf8

/-!
Source files: what a path leads to, and which format its name announces.
-/

set_option autoImplicit false
set_option relaxedAutoImplicit false

namespace ContentImport

/-- What a path leads to. -/
inductive PathContent where
  | missing
  | directory
  | file (bytes : List UInt8)
  deriving DecidableEq, Repr

/-- The text of a file, if it is one and encodes text. -/
def PathContent.text? : PathContent → Option (List Char)
  | .file bytes => Text.Utf8.decode? bytes
  | _ => none

/-- The formats of sources. -/
inductive SourceFormat where
  /-- A document of records in JSON. -/
  | document
  /-- An ontology in RDF/XML. -/
  | ontology
  deriving DecidableEq, Repr

namespace SourceFormat

def name : SourceFormat → String
  | .document => "document"
  | .ontology => "ontology"

/-- The format that an extension announces; upper and lower case of ASCII are the same. -/
def ofExtension? (extension : List Char) : Option SourceFormat :=
  match extension.map Char.toLower with
  | ['j', 's', 'o', 'n'] => some .document
  | ['o', 'w', 'l'] => some .ontology
  | ['r', 'd', 'f'] => some .ontology
  | _ => none

def ofPath? (path : String) : Option SourceFormat :=
  PathName.extension? path >>= ofExtension?

end SourceFormat

end ContentImport
