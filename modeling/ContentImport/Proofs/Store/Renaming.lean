import ContentImport.Proofs.Store.Outside
import Mathlib.Order.Interval.Set.Defs

/-!
Renamings of numbers. They keep the numbers that were given out before a start and take numbers
given out on the way from there to a goal to numbers behind the goal, each to one of its own.
-/

set_option autoImplicit false
set_option relaxedAutoImplicit false

namespace ContentImport.Store

/-- A renaming of the numbers given out on the way to a goal. Numbers up to `start` are kept; of the
numbers up to `here`, those that move are between the goal and `there`. -/
structure Renaming (start goal here there : EntityId) (ρ : EntityId → EntityId) : Prop where
  fixed : ∀ id ≤ start, ρ id = id
  moved : ∀ id, ρ id = id ∨ id ≤ here ∧ goal < ρ id ∧ ρ id ≤ there
  injective : Set.InjOn ρ (Set.Iic goal)
  started : start ≤ here
  later : goal ≤ there

/-- A renaming that takes the numbers behind `here` to those behind `there`. -/
def extend (ρ : EntityId → EntityId) (here there count : EntityId) (id : EntityId) : EntityId :=
  if here < id ∧ id ≤ here + count then there + (id - here) else ρ id

theorem extend_of_le {ρ : EntityId → EntityId} {here id : EntityId} (old : id ≤ here)
    (there count : EntityId) : extend ρ here there count id = ρ id :=
  if_neg fun new => Nat.not_lt.mpr old new.1

theorem extend_add {ρ : EntityId → EntityId} (here there : EntityId) {count i : EntityId}
    (positive : 0 < i) (within : i ≤ count) :
    extend ρ here there count (here + i) = there + i := by
  have new : here < here + i ∧ here + i ≤ here + count :=
    ⟨Nat.lt_add_of_pos_right positive, Nat.add_le_add_left within here⟩
  rw [extend, if_pos new, Nat.add_sub_cancel_left]

namespace Renaming

variable {start goal here there : EntityId} {ρ : EntityId → EntityId}

theorem refl (start goal : EntityId) : Renaming start goal start goal id :=
  ⟨fun _ _ => rfl, fun _ => .inl rfl, fun _ _ _ _ same => same, Nat.le_refl _, Nat.le_refl _⟩

theorem advance (renamed : Renaming start goal here there ρ) {further : EntityId}
    (le : here ≤ further) : Renaming start goal further there ρ where
  fixed := renamed.fixed
  moved id := (renamed.moved id).imp_right fun within => ⟨Nat.le_trans within.1 le, within.2⟩
  injective := renamed.injective
  started := Nat.le_trans renamed.started le
  later := renamed.later

theorem extend (renamed : Renaming start goal here there ρ) {count : Nat}
    (room : here + count ≤ goal) :
    Renaming start goal (here + count) (there + count) (extend ρ here there count) := by
  have started := renamed.started
  have later := renamed.later
  refine ⟨?_, ?_, ?_, Nat.le_trans started (Nat.le_add_right _ _),
    Nat.le_trans later (Nat.le_add_right _ _)⟩
  · intro id old
    rw [extend_of_le (Nat.le_trans old started)]
    exact renamed.fixed id old
  · intro id
    unfold Store.extend
    have before := renamed.moved id
    simp only [EntityId] at *
    split <;> omega
  · intro x givenX y givenY same
    have apart := fun equal => renamed.injective givenX givenY equal
    have movedX := renamed.moved x
    have movedY := renamed.moved y
    unfold Store.extend at same
    simp only [EntityId, Set.mem_Iic] at *
    split at same <;> split at same
    · omega
    · omega
    · omega
    · exact apart same

end Renaming

def renameTag (ρ : EntityId → EntityId) (e : EntityId × StoredTag) : EntityId × StoredTag :=
  (ρ e.1, { e.2 with parents := e.2.parents.map ρ })

def renameNode (ρ : EntityId → EntityId) (e : EntityId × StoredNode) : EntityId × StoredNode :=
  (ρ e.1, e.2)

/-- A path with another number, of the node with the other number. -/
def renamePath (ρ : EntityId → EntityId) (e : EntityId × PathAlias) : EntityId × PathAlias :=
  (ρ e.1, { e.2 with source := nodePath (ρ (nodeOfPath e.2.source)) })

theorem renameTag_id : renameTag id = id := by
  funext e
  rw [renameTag, List.map_id]
  rfl

theorem renameNode_id : renameNode id = id := rfl

theorem renamePath_id {r : Repository} (consistent : r.Consistent) {e : EntityId × PathAlias}
    (member : e ∈ r.paths) : renamePath id e = e := by
  obtain ⟨owner, -, source⟩ := consistent.pathsOwned e member
  rw [renamePath, id, id, source, nodeOfPath_nodePath, ← source]

section
variable {r : Repository} {scope : Scope} {last : EntityId} {ρ ρ' : EntityId → EntityId}

theorem map_renameTag_congr (given : r.GivenUpTo last) (agree : ∀ id ≤ last, ρ' id = ρ id) :
    (r.tagsOutside scope).map (renameTag ρ') = (r.tagsOutside scope).map (renameTag ρ) := by
  refine List.map_congr_left ?_
  intro e member
  have held := (List.mem_filter.mp member).1
  have parents : e.2.parents.map ρ' = e.2.parents.map ρ :=
    List.map_congr_left fun parent listed => agree parent (given.parents e held parent listed)
  rw [renameTag, renameTag, agree e.1 (given.tags e held), parents]

theorem map_renameNode_congr (given : r.GivenUpTo last) (agree : ∀ id ≤ last, ρ' id = ρ id) :
    (r.nodesOutside scope).map (renameNode ρ') = (r.nodesOutside scope).map (renameNode ρ) := by
  refine List.map_congr_left ?_
  intro e member
  rw [renameNode, renameNode, agree e.1 (given.nodes e (List.mem_filter.mp member).1)]

theorem map_renamePath_congr (consistent : r.Consistent) (given : r.GivenUpTo last)
    (agree : ∀ id ≤ last, ρ' id = ρ id) :
    (r.pathsOutside scope).map (renamePath ρ') = (r.pathsOutside scope).map (renamePath ρ) := by
  refine List.map_congr_left ?_
  intro e member
  have held := (List.mem_filter.mp member).1
  obtain ⟨owner, stored, source⟩ := consistent.pathsOwned e held
  have owned := given.nodes owner stored
  rw [renamePath, renamePath, source, nodeOfPath_nodePath, agree e.1 (given.paths e held),
    agree owner.1 owned]

end

end ContentImport.Store
