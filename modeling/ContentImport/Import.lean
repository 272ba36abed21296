import ContentImport.ImportSource
import ContentImport.Store.Import

/-!
Imports. A run writes the records of a source into a store and commits, or fails and rolls back all
that it created. A dump shows the same records without a store.
-/

set_option autoImplicit false
set_option relaxedAutoImplicit false

namespace ContentImport

/-- The records of a source and the warnings that were raised for them. -/
structure RecordDump where
  vocabularies : List VocabularyRecord
  nodes : List NodeRecord
  warnings : List String

def ImportSource.dump (settings : ImportSettings) (source : ImportSource) : RecordDump :=
  let vocabularies := if settings.importVocabularies then source.vocabularyRecords else []
  let nodes := if settings.importNodes then source.nodeRecords else pure []
  ⟨vocabularies, nodes.value,
    ((Warnings.empty.warnAll source.notices).warnAll nodes.messages).messages⟩

def dumpRecords (settings : ImportSettings) (path : String) (content : PathContent) :
    Except ImportError RecordDump :=
  (openSource settings path content).map (·.dump settings)

def RecordDump.toJson (d : RecordDump) : Json.Value :=
  .object [("vocabularies", .list (d.vocabularies.map VocabularyRecord.toJson)),
    ("nodes", .list (d.nodes.map NodeRecord.toJson)), ("warnings", .texts d.warnings)]

/-- What a run created. -/
structure ImportSummary where
  format : SourceFormat
  strategy : Option AccessStrategy
  vocabularies : Nat
  tags : Nat
  nodes : Nat
  files : Nat
  /-- The warnings, each once, in the order in which they were raised. -/
  warnings : List String
  deriving DecidableEq, Repr

def ImportSummary.message (s : ImportSummary) : String :=
  "Success! " ++ toString s.vocabularies ++ " vocabularies with " ++ toString s.tags ++
    " terms and " ++ toString s.nodes ++ " nodes imported."

namespace Progress

def writeVocabularies (p : Progress) (source : ImportSource) : Progress :=
  { p with store := p.store.importVocabularies source.vocabularyRecords }

/-- Write the nodes of a source and then their references, up to the first error that ends the
run. -/
def writeNodes (p : Progress) (source : ImportSource) : Option StoreError × Progress :=
  match p.storeNodes source.nodeEntries with
  | (none, p) => (none, p.resolve.2)
  | failed => failed

def write (settings : ImportSettings) (source : ImportSource) (p : Progress) :
    Option StoreError × Progress :=
  let p := if settings.importVocabularies then p.writeVocabularies source else p
  if settings.importNodes then p.writeNodes source else (none, p)

def summary (p : Progress) (source : ImportSource) : ImportSummary :=
  let ledger := p.store.ledger
  ⟨source.format, source.strategy?, ledger.vocabularies.length, ledger.tags.length,
    ledger.nodes.length, ledger.files.length, p.warnings.messages⟩

end Progress

def runSource (settings : ImportSettings) (source : ImportSource) (store : Store) :
    Except ImportError ImportSummary × Store :=
  let start : Progress := { Progress.start store with
    warnings := Warnings.empty.warnAll source.notices }
  match start.write settings source with
  | (some e, p) => (.error (.store e), p.store.rollback)
  | (none, p) => (.ok (p.summary source), p.store.commit)

/-- Import the source at a path into a store. A source that cannot be opened leaves the store as it
is. -/
def runImport (settings : ImportSettings) (path : String) (content : PathContent) (store : Store) :
    Except ImportError ImportSummary × Store :=
  match openSource settings path content with
  | .error e => (.error e, store)
  | .ok source => runSource settings source store

end ContentImport
