import ContentImport.Config
import ContentImport.Ontology.Reading
import ContentImport.Record.Document
import ContentImport.Store

/-!
Why an import fails, and what is said of it.
-/

set_option autoImplicit false
set_option relaxedAutoImplicit false

namespace ContentImport

open ContentImport.Ontology

/-- What is said of a fault in an ontology, as far as it is not the markup's own. -/
def Ontology.ReadFault.message? : ReadFault → Option String
  | .unexpectedEnd => some "unexpected end of document"
  | .invalidIri e => some e.message
  | .malformed _ => none
  | .directory => none

def DocumentFault.message : DocumentFault → String
  | .malformed => "could not decode the json file:"
  | .mismatchedField fieldName title => "field `" ++ fieldName ++ "` of `" ++ title ++ "`:"

/-- Why an import fails. -/
inductive ImportError where
  | configuration (fault : ConfigFault)
  | unsupportedFormat (path : String)
  | ontology (path : String) (fault : ReadFault)
  | document (path : String) (fault : DocumentFault)
  /-- A file cannot be read, or not as text. -/
  | unreadable
  | store (error : StoreError)
  deriving DecidableEq, Repr

namespace ImportError

/-- Whether the error ends the run; the others only concern the entity being written. -/
def isFatal : ImportError → Bool
  | .store e => e.isFatal
  | _ => true

def report : ImportError → String
  | .configuration fault => "configuration error: " ++ fault.message
  | .unsupportedFormat path =>
    "input file format is not supported or file does not exist: `" ++ path ++ "`"
  | .ontology path fault => "could not parse `" ++ path ++ "`: " ++ fault.message?.getD ""
  | .document path fault => "could not parse `" ++ path ++ "`: " ++ fault.message
  | .unreadable => "stream did not contain valid UTF-8"
  | .store e => e.message

end ImportError

end ContentImport
