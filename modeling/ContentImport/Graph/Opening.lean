import ContentImport.Graph.Indexed
import ContentImport.Graph.Scanned
import ContentImport.Ontology.Reading

/-!
Opening an ontology. The whole document is read first, so that a fault in it shows before anything
is asked.
-/

set_option autoImplicit false
set_option relaxedAutoImplicit false

namespace ContentImport.Graph

open ContentImport.Ontology

def ofElements (strategy : AccessStrategy) (anchors : Anchors) (notices : List String)
    (elements : List Element) : Graph :=
  match strategy with
  | .inMemory => indexed anchors notices elements
  | .streaming => scanned anchors notices elements

def ofBytes (strategy : AccessStrategy) (anchors : Anchors) (bytes : Markup.Bytes) :
    Except ReadFault Graph :=
  (Reading.whole bytes).map fun reading =>
    ofElements strategy anchors reading.notices reading.elements

end ContentImport.Graph
