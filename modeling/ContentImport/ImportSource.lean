import ContentImport.Graph.Opening
import ContentImport.ImportError
import ContentImport.Mapping.Nodes
import ContentImport.SourceFile

/-!
Opening a source. Its path announces the format; the source is read as a whole before anything is
written, so that a fault in it leaves the store alone. Both formats give the same kinds of records.
-/

set_option autoImplicit false
set_option relaxedAutoImplicit false

namespace ContentImport

open ContentImport.Ontology

def readOntology (path : String) : PathContent → Except ImportError Reading
  | .missing => .error .unreadable
  | .directory => .error (.ontology path .directory)
  | .file bytes => (Reading.whole bytes).mapError (.ontology path)

def openGraph (strategy : AccessStrategy) (anchors : Anchors) (path : String)
    (content : PathContent) : Except ImportError Graph :=
  (readOntology path content).map fun reading =>
    Graph.ofElements strategy anchors reading.notices reading.elements

def openDocument (path : String) (content : PathContent) : Except ImportError Document :=
  match content.text? with
  | none => .error .unreadable
  | some text => (Document.ofText text).mapError (.document path)

/-- An open source. -/
inductive ImportSource where
  | document (records : Document)
  | ontology (source : Mapping.Source)

namespace ImportSource

/-- Open the source at a path; there has to be a file of a known format. -/
def ofContent (settings : ImportSettings) (interpreted : ImportSettings.Interpreted)
    (path : String) (content : PathContent) : Except ImportError ImportSource :=
  match SourceFormat.ofPath? path, content with
  | some .document, .file _ => (openDocument path content).map .document
  | some .ontology, .file bytes => do
    let strategy := AccessStrategy.forSize bytes.length interpreted.thresholdBytes
    let graph ← openGraph strategy interpreted.anchors path content
    let options := ⟨settings.classesAsNodes, settings.onlyLeafClassesAsNodes⟩
    pure (.ontology ⟨graph, interpreted.anchors, options⟩)
  | _, _ => .error (.unsupportedFormat path)

def format : ImportSource → SourceFormat
  | .document _ => .document
  | .ontology _ => .ontology

def strategy? : ImportSource → Option AccessStrategy
  | .document _ => none
  | .ontology s => some s.graph.strategy

/-- The notices that were raised while the source was read. -/
def notices : ImportSource → List String
  | .document _ => []
  | .ontology s => s.graph.notices

def vocabularyRecords : ImportSource → List VocabularyRecord
  | .document d => d.vocabularies
  | .ontology s => s.vocabularyRecords

/-- The record of each entity of a source that is to become a node, with the messages for it. -/
def nodeEntries : ImportSource → List (Noted (Option NodeRecord))
  | .document d => d.nodes.map fun n => pure (some n)
  | .ontology s => s.nodeEntities.map s.nodeRecord?

def nodeRecords (source : ImportSource) : Noted (List NodeRecord) := do
  let records ← source.nodeEntries.mapM id
  pure (records.filterMap id)

end ImportSource

/-- Open the source at a path as the settings say. The settings are checked first. -/
def openSource (settings : ImportSettings) (path : String) (content : PathContent) :
    Except ImportError ImportSource := do
  let interpreted ← settings.interpret.mapError fun fault => .configuration (.settings fault)
  ImportSource.ofContent settings interpreted path content

end ContentImport
