import ContentImport.Hierarchy
import Mathlib.Logic.Function.Iterate
import Mathlib.Logic.Relation

/-!
What walks find. Both walks go to the places that steps lead to, in whatever order they wait: a walk
from a place finds exactly the other places that can be reached from it, each once, on cyclic
relations too. A loop that only keeps the places where it was ends with what the walk finds.
-/

set_option autoImplicit false
set_option relaxedAutoImplicit false

namespace ContentImport

namespace Hierarchy

open Relation

variable {α : Type} {next : α → List α}

/-- The places that steps within some places lead to from those of them that wait. -/
inductive Found (next : α → List α) (places waiting : List α) : α → Prop
  | waits {x : α} (held : x ∈ places) (listed : x ∈ waiting) : Found next places waiting x
  | step {x y : α} (found : Found next places waiting x) (follows : y ∈ next x)
      (held : y ∈ places) : Found next places waiting y

namespace Found

variable {places waiting : List α} {x place : α}

private theorem mem (found : Found next places waiting x) : x ∈ places := by
  cases found with
  | waits held _ => exact held
  | step _ _ held => exact held

private theorem mono {waiting' : List α} (among : ∀ a ∈ waiting, a ∈ waiting')
    (found : Found next places waiting x) : Found next places waiting' x := by
  induction found with
  | waits held listed => exact .waits held (among _ listed)
  | step _ follows held ih => exact .step ih follows held

private theorem of_cons_not_mem (gone : place ∉ places)
    (found : Found next places (place :: waiting) x) :
    Found next places waiting x := by
  induction found with
  | waits held listed =>
    rcases List.mem_cons.mp listed with rfl | later
    · exact absurd held gone
    · exact .waits held later
  | step _ follows held ih => exact .step ih follows held

variable [DecidableEq α]

private theorem of_erase (held : place ∈ places)
    (found : Found next (places.erase place) (next place ++ waiting) x) :
    Found next places (place :: waiting) x := by
  induction found with
  | waits left listed =>
    have inside := List.mem_of_mem_erase left
    rcases List.mem_append.mp listed with follows | later
    · exact .step (.waits held List.mem_cons_self) follows inside
    · exact .waits inside (List.mem_cons_of_mem _ later)
  | step _ follows left ih => exact .step ih follows (List.mem_of_mem_erase left)

private theorem erase (found : Found next places (place :: waiting) x) (differs : x ≠ place) :
    Found next (places.erase place) (next place ++ waiting) x := by
  induction found with
  | waits held listed =>
    have later := (List.mem_cons.mp listed).resolve_left differs
    exact .waits ((List.mem_erase_of_ne differs).mpr held) (List.mem_append_right _ later)
  | @step a b _ follows held ih =>
    have left : b ∈ places.erase place := (List.mem_erase_of_ne differs).mpr held
    by_cases back : a = place
    · subst back
      exact .waits left (List.mem_append_left _ follows)
    · exact .step (ih back) follows left

end Found

variable [DecidableEq α] {places : List α}

private theorem mem_descend_iff (stack : List α) (x : α) :
    x ∈ descend next places stack ↔ Found next places stack x := by
  induction places, stack using descend.induct next with
  | case1 places =>
    refine iff_of_false (by simp [descend]) fun found => ?_
    induction found with
    | waits _ listed => cases listed
    | step _ _ _ ih => exact ih
  | case2 places place rest held ih =>
    rw [descend, if_pos held, List.mem_cons, ih]
    constructor
    · rintro (rfl | found)
      · exact .waits held List.mem_cons_self
      · exact found.of_erase held
    · intro found
      by_cases arrived : x = place
      · exact .inl arrived
      · exact .inr (found.erase arrived)
  | case3 places place rest gone ih =>
    rw [descend, if_neg gone, ih]
    exact ⟨Found.mono fun _ => List.mem_cons_of_mem _, Found.of_cons_not_mem gone⟩

private theorem mem_ascend_iff (queue : List α) (x : α) :
    x ∈ ascend next places queue ↔ Found next places queue x := by
  induction places, queue using ascend.induct next with
  | case1 places =>
    rw [← mem_descend_iff]
    simp [ascend, descend]
  | case2 places place rest held ih =>
    have swap : ∀ {xs ys : List α}, ∀ a ∈ xs ++ ys, a ∈ ys ++ xs := by
      intro xs ys a listed
      exact List.mem_append.mpr (List.mem_append.mp listed).symm
    rw [ascend, if_pos held, List.mem_cons, ih]
    constructor
    · rintro (rfl | found)
      · exact .waits held List.mem_cons_self
      · exact (found.mono swap).of_erase held
    · intro found
      by_cases arrived : x = place
      · exact .inl arrived
      · exact .inr ((found.erase arrived).mono swap)
  | case3 places place rest gone ih =>
    rw [ascend, if_neg gone, ih]
    exact ⟨Found.mono fun _ => List.mem_cons_of_mem _, Found.of_cons_not_mem gone⟩

private theorem found_filter_iff {root x : α} (closed : ∀ a, ∀ b ∈ next a, b ∈ places) :
    Found next (places.filter (· ≠ root)) (next root) x ↔
      x ≠ root ∧ TransGen (fun a b => b ∈ next a) root x := by
  constructor
  · intro found
    refine ⟨of_decide_eq_true (List.mem_filter.mp found.mem).2, ?_⟩
    induction found with
    | waits _ follows => exact .single follows
    | step _ follows _ ih => exact ih.tail follows
  · rintro ⟨differs, path⟩
    have kept : ∀ {a b : α}, b ∈ next a → b ≠ root → b ∈ places.filter (· ≠ root) := by
      intro a b follows other
      exact List.mem_filter.mpr ⟨closed a b follows, decide_eq_true other⟩
    induction path with
    | single follows => exact .waits (kept follows differs) follows
    | @tail b c _ follows ih =>
      by_cases returned : b = root
      · subst returned
        exact .waits (kept follows differs) follows
      · exact .step (ih returned) follows (kept follows differs)

theorem mem_depthFirst_iff {root x : α} (closed : ∀ a, ∀ b ∈ next a, b ∈ places) :
    x ∈ depthFirst next places root ↔ x ≠ root ∧ TransGen (fun a b => b ∈ next a) root x := by
  rw [depthFirst, mem_descend_iff, found_filter_iff closed]

theorem mem_breadthFirst_iff {root x : α} (closed : ∀ a, ∀ b ∈ next a, b ∈ places) :
    x ∈ breadthFirst next places root ↔ x ≠ root ∧ TransGen (fun a b => b ∈ next a) root x := by
  rw [breadthFirst, mem_ascend_iff, found_filter_iff closed]

/-! ## Walks that keep where they were -/

/-- The places that a walk finds from the places that wait. `join` puts those that follow a place
to the others that wait. -/
inductive Finds (join : List α → List α → List α) (next : α → List α) :
    List α → List α → List α → Prop
  | nothing (unvisited : List α) : Finds join next unvisited [] []
  | visit {unvisited rest found : List α} {place : α} (held : place ∈ unvisited)
      (later : Finds join next (unvisited.erase place) (join (next place) rest) found) :
      Finds join next unvisited (place :: rest) (place :: found)
  | skip {unvisited rest found : List α} {place : α} (gone : place ∉ unvisited)
      (later : Finds join next unvisited rest found) :
      Finds join next unvisited (place :: rest) found

/-- Places are put in front of those that wait. -/
def stacked (follow rest : List α) : List α :=
  follow ++ rest

/-- Places are put behind those that wait. -/
def queued (follow rest : List α) : List α :=
  rest ++ follow

private theorem finds_descend (unvisited stack : List α) :
    Finds stacked next unvisited stack (descend next unvisited stack) := by
  induction unvisited, stack using descend.induct next with
  | case1 unvisited =>
    rw [descend]
    exact .nothing unvisited
  | case2 unvisited place rest held ih =>
    rw [descend, if_pos held]
    exact .visit held ih
  | case3 unvisited place rest gone ih =>
    rw [descend, if_neg gone]
    exact .skip gone ih

private theorem finds_ascend (unvisited queue : List α) :
    Finds queued next unvisited queue (ascend next unvisited queue) := by
  induction unvisited, queue using ascend.induct next with
  | case1 unvisited =>
    rw [ascend]
    exact .nothing unvisited
  | case2 unvisited place rest held ih =>
    rw [ascend, if_pos held]
    exact .visit held ih
  | case3 unvisited place rest gone ih =>
    rw [ascend, if_neg gone]
    exact .skip gone ih

/-- Where a loop stands that keeps the places where it was. -/
structure Loop (α : Type) where
  visited : List α
  waiting : List α
  found : List α

/-- One round of a loop. The place in front is passed over where the loop was there before;
otherwise it is found, and what follows it waits. A loop for which nothing waits has ended. -/
def Loop.round (join : List α → List α → List α) (next : α → List α) (s : Loop α) : Loop α :=
  match s.waiting with
  | [] => s
  | place :: rest =>
    if place ∈ s.visited then { s with waiting := rest }
    else ⟨place :: s.visited, join (next place) rest, s.found ++ [place]⟩

/-- The loop from a place ends, and has found the given places. -/
def Loop.Ends (join : List α → List α → List α) (next : α → List α) (root : α)
    (found : List α) : Prop :=
  ∃ rounds visited, (Loop.round join next)^[rounds] ⟨[root], next root, []⟩ = ⟨visited, [], found⟩

namespace Finds

variable {join : List α → List α → List α} {unvisited waiting found : List α}

private theorem subset (finds : Finds join next unvisited waiting found) :
    ∀ x ∈ found, x ∈ unvisited := by
  induction finds with
  | nothing => simp
  | visit held _ ih =>
    intro x listed
    rcases List.mem_cons.mp listed with rfl | later
    · exact held
    · exact List.mem_of_mem_erase (ih x later)
  | skip _ _ ih => exact ih

private theorem nodup (finds : Finds join next unvisited waiting found) (once : unvisited.Nodup) :
    found.Nodup := by
  induction finds with
  | nothing => exact List.nodup_nil
  | @visit unvisited _ _ place _ later ih =>
    refine List.nodup_cons.mpr ⟨fun again => ?_, ih (once.erase place)⟩
    exact once.not_mem_erase (later.subset place again)
  | skip _ _ ih => exact ih once

private theorem iterate_round (finds : Finds join next unvisited waiting found)
    (once : unvisited.Nodup)
    (joins : ∀ follow rest, ∀ x ∈ join follow rest, x ∈ follow ∨ x ∈ rest)
    (closed : ∀ a, ∀ b ∈ next a, b ∈ places) {visited : List α} (within : ∀ x ∈ waiting, x ∈ places)
    (left : ∀ x ∈ places, x ∈ unvisited ↔ x ∉ visited) (before : List α) :
    ∃ rounds visited', (Loop.round join next)^[rounds] ⟨visited, waiting, before⟩ =
      ⟨visited', [], before ++ found⟩ := by
  induction finds generalizing visited before with
  | nothing => exact ⟨0, visited, by rw [List.append_nil]; rfl⟩
  | @visit unvisited rest found place held _ ih =>
    obtain ⟨inside, insideRest⟩ := List.forall_mem_cons.mp within
    have new : place ∉ visited := (left place inside).mp held
    have within' : ∀ x ∈ join (next place) rest, x ∈ places := fun x waits =>
      (joins _ _ x waits).elim (closed place x) (insideRest x)
    have left' : ∀ x ∈ places, x ∈ unvisited.erase place ↔ x ∉ place :: visited := by
      intro x member
      rw [once.mem_erase_iff, left x member, List.mem_cons, not_or]
    obtain ⟨rounds, visited', ends⟩ :=
      ih (once.erase place) within' left' (before ++ [place])
    refine ⟨rounds + 1, visited', ?_⟩
    rw [Function.iterate_succ_apply, Loop.round]
    simp only [if_neg new]
    rw [ends, List.append_assoc, List.singleton_append]
  | @skip unvisited rest found place gone _ ih =>
    obtain ⟨inside, insideRest⟩ := List.forall_mem_cons.mp within
    have old : place ∈ visited := not_not.mp fun new => gone ((left place inside).mpr new)
    obtain ⟨rounds, visited', ends⟩ := ih once insideRest left before
    refine ⟨rounds + 1, visited', ?_⟩
    rw [Function.iterate_succ_apply, Loop.round]
    simp only [if_pos old]
    exact ends

end Finds

private theorem ends_of_finds {join : List α → List α → List α} {root : α} {found : List α}
    (joins : ∀ follow rest, ∀ x ∈ join follow rest, x ∈ follow ∨ x ∈ rest)
    (once : places.Nodup) (closed : ∀ a, ∀ b ∈ next a, b ∈ places)
    (finds : Finds join next (places.filter (· ≠ root)) (next root) found) :
    Loop.Ends join next root found := by
  have left : ∀ x ∈ places, x ∈ places.filter (· ≠ root) ↔ x ∉ [root] := by
    intro x member
    simp [member]
  exact finds.iterate_round (once.filter _) joins closed (closed root) left []

theorem ends_depthFirst (once : places.Nodup) (closed : ∀ a, ∀ b ∈ next a, b ∈ places) (root : α) :
    Loop.Ends stacked next root (depthFirst next places root) :=
  ends_of_finds (fun _ _ _ => List.mem_append.mp) once closed (finds_descend _ _)

/-- The loop with a queue ends with what a breadth-first walk finds. -/
theorem ends_breadthFirst (once : places.Nodup) (closed : ∀ a, ∀ b ∈ next a, b ∈ places)
    (root : α) : Loop.Ends queued next root (breadthFirst next places root) :=
  ends_of_finds (fun _ _ _ waits => (List.mem_append.mp waits).symm) once closed
    (finds_ascend _ _)

theorem nodup_depthFirst (once : places.Nodup) (root : α) :
    (depthFirst next places root).Nodup :=
  (finds_descend _ _).nodup (once.filter _)

theorem nodup_breadthFirst (once : places.Nodup) (root : α) :
    (breadthFirst next places root).Nodup :=
  (finds_ascend _ _).nodup (once.filter _)

/-! ## Walks among some places -/

/-- Where no step from the other places leads to the places that are wanted, a walk finds these as
if there were no others. -/
theorem filter_ascend {wanted : α → Bool}
    (apart : ∀ a, wanted a = false → ∀ b ∈ next a, wanted b = false)
    (unvisited queue : List α) :
    (ascend next unvisited queue).filter wanted =
      ascend (fun a => (next a).filter wanted) (unvisited.filter wanted) (queue.filter wanted) := by
  induction unvisited, queue using ascend.induct next with
  | case1 unvisited => simp only [ascend, List.filter_nil]
  | case2 unvisited place rest held ih =>
    rw [ascend, if_pos held]
    cases chosen : wanted place with
    | true =>
      have left : place ∈ unvisited.filter wanted := List.mem_filter.mpr ⟨held, chosen⟩
      rw [List.filter_cons_of_pos chosen, List.filter_cons_of_pos chosen, ascend, if_pos left, ih,
        List.erase_filter, List.filter_append]
    | false =>
      have dropped : ¬ wanted place = true := by simp [chosen]
      have elsewhere : (next place).filter wanted = [] :=
        List.filter_eq_nil_iff.mpr fun b follows => by simp [apart place chosen b follows]
      have same : (unvisited.erase place).filter wanted = unvisited.filter wanted := by
        rw [← List.erase_filter, List.erase_of_not_mem]
        exact fun left => dropped (List.mem_filter.mp left).2
      rw [List.filter_cons_of_neg dropped, List.filter_cons_of_neg dropped, ih, same,
        List.filter_append, elsewhere, List.append_nil]
  | case3 unvisited place rest gone ih =>
    rw [ascend, if_neg gone, ih]
    cases chosen : wanted place with
    | true =>
      have left : place ∉ unvisited.filter wanted := fun left => gone (List.mem_filter.mp left).1
      rw [List.filter_cons_of_pos chosen, ascend, if_neg left]
    | false => rw [List.filter_cons_of_neg (by simp [chosen])]

/-- From each place steps lead to nothing but the next one of a row, and from the last one
nowhere. -/
inductive OnlyAlong (next : α → List α) : α → List α → Prop
  | last {a : α} (ends : next a = []) : OnlyAlong next a []
  | step {a b : α} {row : List α} (only : next a = [b]) (along : OnlyAlong next b row) :
      OnlyAlong next a (b :: row)

theorem OnlyAlong.ascend_eq {a : α} {row unvisited : List α} (along : OnlyAlong next a row)
    (once : row.Nodup) (left : ∀ b ∈ row, b ∈ unvisited) :
    ascend next unvisited (next a) = row := by
  induction along generalizing unvisited with
  | last ends => rw [ends, ascend]
  | @step a b row only along ih =>
    obtain ⟨fresh, later⟩ := List.nodup_cons.mp once
    have remain : ∀ c ∈ row, c ∈ unvisited.erase b := by
      intro c listed
      have differs : c ≠ b := ne_of_mem_of_not_mem listed fresh
      exact (List.mem_erase_of_ne differs).mpr (left c (List.mem_cons_of_mem _ listed))
    rw [only, ascend, if_pos (left b List.mem_cons_self), List.nil_append, ih later remain]

/-! ## Walks in steps -/

/-- A depth-first walk that ends after a number of steps at the latest. -/
def descendWithin (next : α → List α) : Nat → List α → List α → List α
  | 0, _, _ => []
  | _ + 1, _, [] => []
  | steps + 1, unvisited, place :: rest =>
    if place ∈ unvisited then
      place :: descendWithin next steps (unvisited.erase place) (next place ++ rest)
    else descendWithin next steps unvisited rest

/-- A breadth-first walk that ends after a number of steps at the latest. -/
def ascendWithin (next : α → List α) : Nat → List α → List α → List α
  | 0, _, _ => []
  | _ + 1, _, [] => []
  | steps + 1, unvisited, place :: rest =>
    if place ∈ unvisited then
      place :: ascendWithin next steps (unvisited.erase place) (rest ++ next place)
    else ascendWithin next steps unvisited rest

/-- The places that can come to wait in a walk, each as often as it can. -/
def work (next : α → List α) (unvisited waiting : List α) : Nat :=
  waiting.length + (unvisited.flatMap next).length

private theorem work_of_mem {place : α} {unvisited rest joined : List α}
    (held : place ∈ unvisited) (joins : joined.length = (next place).length + rest.length) :
    work next unvisited (place :: rest) = work next (unvisited.erase place) joined + 1 := by
  have moved : (unvisited.flatMap next).length =
      ((place :: unvisited.erase place).flatMap next).length :=
    ((List.perm_cons_erase held).flatMap_right next).length_eq
  rw [List.flatMap_cons, List.length_append] at moved
  rw [work, work, List.length_cons, joins]
  omega

private theorem descend_eq_descendWithin (unvisited stack : List α) :
    descend next unvisited stack =
      descendWithin next (work next unvisited stack) unvisited stack := by
  induction unvisited, stack using descend.induct next with
  | case1 unvisited =>
    rw [descend]
    cases work next unvisited [] <;> rfl
  | case2 unvisited place rest held ih =>
    rw [descend, if_pos held, work_of_mem held List.length_append, descendWithin, if_pos held, ih]
  | case3 unvisited place rest gone ih =>
    have fewer : work next unvisited (place :: rest) = work next unvisited rest + 1 := by
      rw [work, work, List.length_cons, Nat.add_right_comm]
    rw [descend, if_neg gone, fewer, descendWithin, if_neg gone, ih]

private theorem ascend_eq_ascendWithin (unvisited queue : List α) :
    ascend next unvisited queue =
      ascendWithin next (work next unvisited queue) unvisited queue := by
  induction unvisited, queue using ascend.induct next with
  | case1 unvisited =>
    rw [ascend]
    cases work next unvisited [] <;> rfl
  | case2 unvisited place rest held ih =>
    have joins : (rest ++ next place).length = (next place).length + rest.length := by
      rw [List.length_append, Nat.add_comm]
    rw [ascend, if_pos held, work_of_mem held joins, ascendWithin, if_pos held, ih]
  | case3 unvisited place rest gone ih =>
    have fewer : work next unvisited (place :: rest) = work next unvisited rest + 1 := by
      rw [work, work, List.length_cons, Nat.add_right_comm]
    rw [ascend, if_neg gone, fewer, ascendWithin, if_neg gone, ih]

end Hierarchy

namespace Graph

theorem allSubclasses_eq_descendWithin (g : Graph) (c : Iri) :
    g.allSubclasses c =
      let unvisited := g.linked.filter (· ≠ c)
      Hierarchy.descendWithin g.directSubclasses
        (Hierarchy.work g.directSubclasses unvisited (g.directSubclasses c)) unvisited
        (g.directSubclasses c) :=
  Hierarchy.descend_eq_descendWithin _ _

theorem allSuperclasses_eq_ascendWithin (g : Graph) (c : Iri) :
    g.allSuperclasses c =
      let unvisited := g.linked.filter (· ≠ c)
      Hierarchy.ascendWithin g.directSuperclasses
        (Hierarchy.work g.directSuperclasses unvisited (g.directSuperclasses c)) unvisited
        (g.directSuperclasses c) :=
  Hierarchy.ascend_eq_ascendWithin _ _

end Graph

end ContentImport
