import ContentImport.Proofs.Import.Phases
import ContentImport.Proofs.Mapping.Parts

/-!
Which messages are raised where. Each message of a computation comes from one of its parts; mapping
the fields of a node raises messages about values alone, and storing nodes adds messages about
fields and nodes that the store does not take.
-/

set_option autoImplicit false
set_option relaxedAutoImplicit false

namespace ContentImport

open ContentImport.Ontology

theorem Warnings.messages_warnAll (log : Warnings) (messages : List String) :
    (log.warnAll messages).messages = Distinct.addAll log.messages messages := by
  unfold warnAll Distinct.addAll
  induction messages generalizing log with
  | nil => rfl
  | cons message messages ih => exact ih _

@[simp] theorem Warnings.mem_warnAll {log : Warnings} {messages : List String} {m : String} :
    m ∈ (log.warnAll messages).messages ↔ m ∈ log.messages ∨ m ∈ messages := by
  rw [messages_warnAll, Distinct.mem_addAll]

namespace Mapping

open Source

/-- What is said of a value that does not become a field. -/
inductive ValueNotice : String → Prop
  | unnamed (entity property target : Iri) :
      ValueNotice (unnamedValueMessage entity property target)
  | missing (target : Iri) (field : String) : ValueNotice (missingValueMessage target field)
  | missingUri (entity target : Iri) : ValueNotice (missingUriMessage entity target)
  | nonexistent (entity property target : Iri) :
      ValueNotice (nonexistentMessage entity property target)

namespace Source

variable (s : Source) (entity : Iri) {m : String}

private theorem valueNotice_of_mem_entityValue? {property target : Iri} {axioms : AxiomIndex}
    (raised : m ∈ (s.entityValue? entity property target axioms).messages) : ValueNotice m := by
  unfold entityValue? at raised
  split at raised
  · obtain rfl : m = unnamedValueMessage entity property target := by simpa using raised
    exact .unnamed entity property target
  · next field _ =>
    split at raised
    · obtain rfl : m = missingValueMessage target field := by simpa using raised
      exact .missing target field
    · simp at raised

private theorem valueNotice_of_mem_targetItem? {property target : Iri} {axioms : AxiomIndex}
    (raised : m ∈ (s.targetItem? entity property target axioms).messages) : ValueNotice m := by
  unfold targetItem? at raised
  split at raised
  · simp at raised
  · split at raised
    · split at raised
      · simp at raised
      · obtain rfl : m = missingUriMessage entity target := by simpa using raised
        exact .missingUri entity target
    · split at raised
      · simp at raised
      · split at raised
        · exact s.valueNotice_of_mem_entityValue? entity (by simpa using raised)
        · obtain rfl : m = nonexistentMessage entity property target := by simpa using raised
          exact .nonexistent entity property target

private theorem valueNotice_of_mem_nodeField? {e : Element} {property : Iri} {axioms : AxiomIndex}
    (raised : m ∈ (s.nodeField? entity e property axioms).messages) : ValueNotice m := by
  unfold nodeField? at raised
  simp only at raised
  split at raised
  · simp at raised
  · simp only [Noted.messages_bind, Noted.messages_mapM, List.mem_append, List.mem_flatMap]
      at raised
    rcases raised with ⟨target, -, said⟩ | said
    · exact s.valueNotice_of_mem_targetItem? entity said
    · split at said <;> simp at said

theorem valueNotice_of_mem_nodeFields {e : Element}
    (raised : m ∈ (s.nodeFields entity e).messages) : ValueNotice m := by
  rw [messages_nodeFields] at raised
  obtain ⟨property, -, said⟩ := List.mem_flatMap.mp raised
  exact s.valueNotice_of_mem_nodeField? entity said

end Source

end Mapping

/-- What is said of a node or a field that the store does not take. -/
inductive StoreNotice : String → Prop
  | refused (e : StoreError) : StoreNotice e.message
  | skipped (bundle fieldName : String) :
      StoreNotice (Progress.skippedFieldMessage bundle fieldName)

/-- What is said of a source while it is read and mapped. -/
inductive SourceNotice : String → Prop
  | leftOut (e : Element) (predicate : Iri) : SourceNotice (Reader.notice e predicate)
  | unresolvedType (entity : Iri) : SourceNotice (Mapping.Source.unresolvedTypeMessage entity)
  | value {m : String} (notice : Mapping.ValueNotice m) : SourceNotice m

/-! ## Where a message comes from -/

/-- Whether a message begins as those of the store do, with a small letter. -/
def isOfStore (m : String) : Bool :=
  m.toList.head?.any Char.isLower

private theorem isOfStore_append {start : String} {small : Bool}
    (begins : start.toList.head?.map Char.isLower = some small) (rest : String) :
    isOfStore (start ++ rest) = small := by
  obtain ⟨c, first, rfl⟩ := Option.map_eq_some_iff.mp begins
  rw [isOfStore, String.toList_append, List.head?_append, first, Option.some_or, Option.any_some]

theorem StoreNotice.isOfStore {m : String} (notice : StoreNotice m) :
    ContentImport.isOfStore m = true := by
  cases notice with
  | refused e =>
    unfold StoreError.message
    cases e <;> simp only [String.append_assoc] <;> exact isOfStore_append (by decide +kernel) _
  | skipped bundle fieldName =>
    unfold Progress.skippedFieldMessage
    simp only [String.append_assoc]
    exact isOfStore_append (by decide +kernel) _

theorem SourceNotice.isOfStore {m : String} (notice : SourceNotice m) :
    ContentImport.isOfStore m = false := by
  cases notice with
  | leftOut e predicate =>
    unfold Reader.notice
    simp only [String.append_assoc]
    exact isOfStore_append (by decide +kernel) _
  | unresolvedType entity =>
    unfold Mapping.Source.unresolvedTypeMessage
    simp only [String.append_assoc]
    exact isOfStore_append (by decide +kernel) _
  | value notice =>
    cases notice
    · unfold Mapping.Source.unnamedValueMessage
      simp only [String.append_assoc]
      exact isOfStore_append (by decide +kernel) _
    · unfold Mapping.Source.missingValueMessage
      simp only [String.append_assoc]
      exact isOfStore_append (by decide +kernel) _
    · unfold Mapping.Source.missingUriMessage
      simp only [String.append_assoc]
      exact isOfStore_append (by decide +kernel) _
    · unfold Mapping.Source.nonexistentMessage
      simp only [String.append_assoc]
      exact isOfStore_append (by decide +kernel) _

theorem Mapping.Source.sourceNotice_of_mem_nodeRecord? (s : Source) {entity : Iri} {m : String}
    (raised : m ∈ (s.nodeRecord? entity).messages) : SourceNotice m := by
  cases typed : s.bundleOf? entity with
  | none =>
    rw [nodeRecord?_of_none typed] at raised
    rw [List.mem_singleton.mp raised]
    exact .unresolvedType entity
  | some bundle =>
    rw [nodeRecord?_of_bundle typed] at raised
    exact .value (s.valueNotice_of_mem_nodeFields entity raised)

namespace Progress

theorem storeNode_eq (p : Progress) (n : NodeRecord) :
    ∃ messages, (∀ m ∈ messages, StoreNotice m) ∧ ∀ log,
      ({ p with warnings := log } : Progress).storeNode n =
        ((p.storeNode n).1, { (p.storeNode n).2 with warnings := log.warnAll messages }) := by
  unfold storeNode
  cases outcome : p.store.createNode n with
  | mk result s =>
    cases result with
    | ok created =>
      refine ⟨created.skippedFields.map (skippedFieldMessage n.bundle), fun m said => ?_,
        fun log => by simp only [outcome]⟩
      obtain ⟨fieldName, -, rfl⟩ := List.mem_map.mp said
      exact .skipped n.bundle fieldName
    | error e =>
      cases fatal : e.isFatal with
      | true => exact ⟨[], nofun, fun log => by simp [outcome, fatal, Warnings.warnAll]⟩
      | false =>
        refine ⟨[e.message], fun m said => ?_,
          fun log => by simp [outcome, fatal, warn, Warnings.warnAll]⟩
        obtain rfl := List.mem_singleton.mp said
        exact .refused e

private theorem mem_warnings_storeNode {p : Progress} {n : NodeRecord} {m : String}
    (raised : m ∈ (p.storeNode n).2.warnings.messages) :
    m ∈ p.warnings.messages ∨ StoreNotice m := by
  obtain ⟨messages, notices, stored⟩ := p.storeNode_eq n
  rw [stored p.warnings, Warnings.mem_warnAll] at raised
  exact raised.imp_right (notices m)

private theorem mem_warnings_storeNodes {p : Progress} {entries : List (Noted (Option NodeRecord))}
    {m : String} (raised : m ∈ (p.storeNodes entries).2.warnings.messages) :
    m ∈ p.warnings.messages ∨ (∃ entry ∈ entries, m ∈ entry.messages) ∨ StoreNotice m := by
  induction entries generalizing p with
  | nil => exact .inl raised
  | cons entry entries ih =>
    -- What holds of the messages once those of the first entry are raised holds of all of them.
    have first : m ∈ (p.noting entry).warnings.messages ∨
        (∃ entry ∈ entries, m ∈ entry.messages) ∨ StoreNotice m := by
      cases present : entry.value with
      | none =>
        rw [storeNodes_cons_none p present] at raised
        exact ih raised
      | some n =>
        rw [storeNodes_cons_some p present] at raised
        have stored := fun r => mem_warnings_storeNode (p := p.noting entry) (n := n) (m := m) r
        split at raised
        · next failed =>
          rw [failed] at stored
          exact (stored raised).imp_right .inr
        · next passed =>
          rw [passed] at stored
          rcases ih raised with before | others
          · exact (stored before).imp_right .inr
          · exact .inr others
    rcases first with before | ⟨other, listed, said⟩ | stores
    · rcases Warnings.mem_warnAll.mp before with earlier | said
      · exact .inl earlier
      · exact .inr (.inl ⟨entry, List.mem_cons_self, said⟩)
    · exact .inr (.inl ⟨other, List.mem_cons_of_mem _ listed, said⟩)
    · exact .inr (.inr stores)

theorem mem_warnings_writeNodes {p : Progress} {source : ImportSource} {m : String}
    (raised : m ∈ (p.writeNodes source).2.warnings.messages) :
    m ∈ p.warnings.messages ∨ (∃ entry ∈ source.nodeEntries, m ∈ entry.messages) ∨
      StoreNotice m := by
  have same : (p.writeNodes source).2.warnings = (p.storeNodes source.nodeEntries).2.warnings := by
    unfold writeNodes
    split
    · next passed => rw [passed]; rfl
    · rfl
  rw [same] at raised
  exact mem_warnings_storeNodes raised

end Progress

end ContentImport
