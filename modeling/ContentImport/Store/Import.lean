import ContentImport.Store
import ContentImport.Warnings

/-!
Writing records into a store. Vocabularies come first: all tags of one, then their parents, since
these are found by name. Nodes may refer to nodes that are written later; such fields wait until
every node is written.
-/

set_option autoImplicit false
set_option relaxedAutoImplicit false

namespace ContentImport

open ContentImport.Store

namespace Store

/-- Create the tags of a vocabulary that do not exist yet. -/
def addTags (s : Store) (vocabularyId : String) (tags : List TagRecord) : Store :=
  tags.foldl (fun s tag =>
    if (s.repository.tagId? vocabularyId tag.name).isSome then s
    else s.addTag vocabularyId tag.name) s

/-- Create a vocabulary with its tags and link their parents. -/
def importVocabulary (s : Store) (v : VocabularyRecord) : Store :=
  ((s.createVocabulary v.vocabularyId v.name).addTags v.vocabularyId v.tags).setTagParents
    v.vocabularyId v.tagParents

def importVocabularies (s : Store) (vocabularies : List VocabularyRecord) : Store :=
  vocabularies.foldl importVocabulary s

end Store

/-- A reference field whose targets may not exist yet. -/
structure DeferredReference where
  owningNode : EntityId
  fieldName : String
  kind : ReferenceKind
  targets : List FieldItem
  deriving DecidableEq, Repr

/-- The fields of a node that wait for other entities, except those that its content type does not
have. -/
def splitDeferred (n : NodeRecord) (created : CreatedNode) : List DeferredReference :=
  (n.fields.filter fun f => !created.skippedFields.contains f.fieldName).filterMap fun f => do
    let targets ← f.deferredTargets?
    let kind ← f.references
    pure ⟨created.id, f.fieldName, kind, targets⟩

namespace Store

/-- The number of a target, where it exists: a node of this run, or a tag. -/
def resolveTarget? (s : Store) : FieldItem → Option EntityId
  | .node uuid => s.createdNodeId? uuid
  | .tag ref => s.repository.tagId? ref.vocabularyId ref.name
  | .file _ => none
  | .literal _ => none

def resolveReference (s : Store) (d : DeferredReference) : ReferenceWrite :=
  ⟨d.owningNode, d.fieldName, d.kind, d.targets.map s.resolveTarget?⟩

end Store

/-- How far a run has come: its store, the fields that wait, and its warnings. -/
structure Progress where
  store : Store
  pending : List DeferredReference
  warnings : Warnings

namespace Progress

def start (store : Store) : Progress :=
  ⟨store, [], .empty⟩

def warn (p : Progress) (message : String) : Progress :=
  { p with warnings := p.warnings.warn message }

/-- What is said of a field that the content type of a node does not have. -/
def skippedFieldMessage (bundle fieldName : String) : String :=
  "field \"" ++ fieldName ++ "\" does not exist in \"" ++ bundle ++ "\"."

/-- Write a node and keep the fields that wait. A refusal that concerns the node alone is a warning;
any other is given back. -/
def storeNode (p : Progress) (n : NodeRecord) : Option StoreError × Progress :=
  match p.store.createNode n with
  | (.ok created, store) =>
    let messages := created.skippedFields.map (skippedFieldMessage n.bundle)
    (none, ⟨store, p.pending ++ splitDeferred n created, p.warnings.warnAll messages⟩)
  | (.error e, store) =>
    let p := { p with store }
    if e.isFatal then (some e, p) else (none, p.warn e.message)

/-- Write the nodes that come with their messages, up to the first error that ends the run. -/
def storeNodes (p : Progress) : List (Noted (Option NodeRecord)) → Option StoreError × Progress
  | [] => (none, p)
  | noted :: rest =>
    let p := { p with warnings := p.warnings.warnAll noted.messages }
    match noted.value with
    | none => p.storeNodes rest
    | some n =>
      match p.storeNode n with
      | (some e, p) => (some e, p)
      | (none, p) => p.storeNodes rest

/-- Write the fields that wait; targets that do not exist become nothing. Also gives how many fields
were written. -/
def resolve (p : Progress) : Nat × Progress :=
  let writes := p.pending.map p.store.resolveReference
  (writes.length, { p with store := p.store.insertReferences writes, pending := [] })

end Progress

end ContentImport
