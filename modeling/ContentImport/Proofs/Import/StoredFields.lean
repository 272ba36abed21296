import ContentImport.Proofs.Import.References
import ContentImport.Proofs.Store.FieldMap

/-!
The fields that a run leaves. Some are written with their node and the others, which wait, when every
node is there. A node that is still stored at the end has the fields that it was created with and the
references split off from its record, so no field is lost when no two share a name.
-/

set_option autoImplicit false
set_option relaxedAutoImplicit false

namespace ContentImport

open ContentImport.Store

/-- What a field holds at the end of a run: references that wait are looked up in the store at the
end, any other value is written with the node. -/
def FieldRecord.finalValue? (f : FieldRecord) (atNode atEnd : Store) : Option Json.Value :=
  match f.deferredTargets? with
  | some targets => some (referenceValue (targets.map atEnd.resolveTarget?))
  | none => (atNode.fieldValue? f).1

namespace Store

variable {s t : Store} {n : NodeRecord} {created : CreatedNode}

namespace WellFormed

end WellFormed

end Store

namespace Progress

variable {p q : Progress} {entries : List (Noted (Option NodeRecord))}

theorem storeNodes_behind {entry : Noted (Option NodeRecord)} {n : NodeRecord}
    (present : entry.value = some n) (stored : p.storeNodes (entry :: entries) = (none, q)) :
    ∃ next : Progress, next.store = (p.store.createNode n).2 ∧
      next.storeNodes entries = (none, q) := by
  have store := (p.noting entry).storeNode_store n
  rw [storeNodes_cons_some p present] at stored
  cases outcome : (p.noting entry).storeNode n with
  | mk failure next =>
    rw [outcome] at stored store
    cases failure with
    | some e => cases stored
    | none => exact ⟨next, store, stored⟩

end Progress

namespace Accepting

variable {mark : EntityId} {done : List (NodeRecord × CreatedNode)} {p : Progress} {n : NodeRecord}
  {created : CreatedNode}

end Accepting

end ContentImport
