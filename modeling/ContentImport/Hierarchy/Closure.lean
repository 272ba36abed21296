/-!
Walks over a relation. A walk never goes to a place twice and stays within a finite list of places,
so it ends on every relation, cycles included.
-/

set_option autoImplicit false
set_option relaxedAutoImplicit false

namespace ContentImport.Hierarchy

variable {α : Type} [DecidableEq α]

/-- The unvisited places that can be reached from a stack of places, each followed by what can be
reached from it. -/
def descend (next : α → List α) (unvisited : List α) : List α → List α
  | [] => []
  | place :: rest =>
    if place ∈ unvisited then
      place :: descend next (unvisited.erase place) (next place ++ rest)
    else descend next unvisited rest
termination_by stack => (unvisited.length, stack.length)
decreasing_by
  · next held =>
    have shorter : (unvisited.erase place).length < unvisited.length := by
      have := List.length_pos_of_mem held
      have := List.length_erase_of_mem held
      omega
    exact Prod.Lex.left _ _ shorter
  · exact Prod.Lex.right _ (by simp)

/-- The unvisited places that can be reached from a queue of places, the nearest first. -/
def ascend (next : α → List α) (unvisited : List α) : List α → List α
  | [] => []
  | place :: rest =>
    if place ∈ unvisited then
      place :: ascend next (unvisited.erase place) (rest ++ next place)
    else ascend next unvisited rest
termination_by queue => (unvisited.length, queue.length)
decreasing_by
  · next held =>
    have shorter : (unvisited.erase place).length < unvisited.length := by
      have := List.length_pos_of_mem held
      have := List.length_erase_of_mem held
      omega
    exact Prod.Lex.left _ _ shorter
  · exact Prod.Lex.right _ (by simp)

/-- A depth-first walk from a place, which is not itself part of it. -/
def depthFirst (next : α → List α) (places : List α) (root : α) : List α :=
  descend next (places.filter (· ≠ root)) (next root)

/-- A breadth-first walk from a place, which is not itself part of it. -/
def breadthFirst (next : α → List α) (places : List α) (root : α) : List α :=
  ascend next (places.filter (· ≠ root)) (next root)

end ContentImport.Hierarchy
