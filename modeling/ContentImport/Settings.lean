import ContentImport.ByteSize
import ContentImport.Json.Record
import ContentImport.Ontology.Names

/-!
The settings of an import: what is imported, what becomes a node, and how the source is read. They
are checked before anything else is done.
-/

set_option autoImplicit false
set_option relaxedAutoImplicit false

namespace ContentImport

open ContentImport.Json
open ContentImport.Ontology

/-- The switches and limits of an import. -/
structure ImportSettings where
  importVocabularies : Bool
  importNodes : Bool
  /-- Whether classes below the content types become nodes as well. -/
  classesAsNodes : Bool
  /-- Whether, of those classes, only the ones without classes below them do. -/
  onlyLeafClassesAsNodes : Bool
  /-- Whether vocabularies and nodes that exist are replaced. -/
  overwrite : Bool
  /-- The size above which ontologies are streamed. -/
  streamingThreshold : String
  /-- The namespace of the anchors. -/
  anchorSpace : String
  deriving DecidableEq, Repr

/-- Why settings cannot be used. -/
inductive SettingsFault where
  | invalidThreshold (threshold : String)
  | thresholdTooLarge (threshold : String)
  | invalidNamespace (ns : String) (reason : InvalidIri)
  deriving DecidableEq, Repr

def SettingsFault.message : SettingsFault → String
  | .invalidThreshold threshold => "invalid streaming threshold `" ++ threshold ++ "`:"
  | .thresholdTooLarge threshold => "streaming threshold `" ++ threshold ++ "` is too large"
  | .invalidNamespace ns reason => "invalid namespace `" ++ ns ++ "`: " ++ reason.message

namespace ImportSettings

def standard : ImportSettings where
  importVocabularies := true
  importNodes := true
  classesAsNodes := false
  onlyLeafClassesAsNodes := false
  overwrite := false
  streamingThreshold := "100MB"
  anchorSpace := anchorNamespace

/-- The size above which ontologies are streamed, in bytes. -/
def thresholdBytes (s : ImportSettings) : Except SettingsFault Nat :=
  match ByteSize.ofText s.streamingThreshold with
  | .ok size => .ok size
  | .error .malformed => .error (.invalidThreshold s.streamingThreshold)
  | .error .tooLarge => .error (.thresholdTooLarge s.streamingThreshold)

def anchors (s : ImportSettings) : Except SettingsFault Anchors :=
  (Anchors.inNamespace s.anchorSpace).mapError (.invalidNamespace s.anchorSpace)

/-- Settings that can be used: the limit in bytes and the anchors. -/
structure Interpreted where
  thresholdBytes : Nat
  anchors : Anchors

/-- Interpret settings. The limit is looked at first. -/
def interpret (s : ImportSettings) : Except SettingsFault Interpreted := do
  let thresholdBytes ← s.thresholdBytes
  let anchors ← s.anchors
  pure ⟨thresholdBytes, anchors⟩

def fieldNames : List String :=
  ["import_vocabularies", "import_nodes", "classes_as_nodes", "only_leaf_classes_as_nodes",
    "overwrite", "streaming_threshold", "namespace"]

/-- Read settings from JSON; a setting that is not given is the standard one. -/
def ofJson? (v : Value) : Option ImportSettings := do
  match ← Slot.ofRecord? fieldNames v with
  | [importVocabularies, importNodes, classesAsNodes, onlyLeafClasses, overwrite, threshold, ns] =>
    pure {
      importVocabularies :=
        ← importVocabularies.defaulted standard.importVocabularies Value.bool?
      importNodes := ← importNodes.defaulted standard.importNodes Value.bool?
      classesAsNodes := ← classesAsNodes.defaulted standard.classesAsNodes Value.bool?
      onlyLeafClassesAsNodes :=
        ← onlyLeafClasses.defaulted standard.onlyLeafClassesAsNodes Value.bool?
      overwrite := ← overwrite.defaulted standard.overwrite Value.bool?
      streamingThreshold := ← threshold.defaulted standard.streamingThreshold Value.text?
      anchorSpace := ← ns.defaulted standard.anchorSpace Value.text? }
  | _ => none

def toJson (s : ImportSettings) : Value :=
  .object [("import_vocabularies", .bool s.importVocabularies),
    ("import_nodes", .bool s.importNodes), ("classes_as_nodes", .bool s.classesAsNodes),
    ("only_leaf_classes_as_nodes", .bool s.onlyLeafClassesAsNodes),
    ("overwrite", .bool s.overwrite), ("streaming_threshold", .text s.streamingThreshold),
    ("namespace", .text s.anchorSpace)]

end ImportSettings

end ContentImport
