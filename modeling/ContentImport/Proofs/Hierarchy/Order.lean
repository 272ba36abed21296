import ContentImport.Proofs.Hierarchy.Subclass
import Mathlib.Data.List.Forall2
import Mathlib.Data.List.Nodup
import Mathlib.Data.Nat.Init
import Mathlib.Order.Bounds.Basic

/-!
The order in which walks find places. A depth-first walk with a stack finds them in the order of a
recursive traversal, which goes on behind each place before it turns to the next one. A breadth-first
walk finds a whole level after the other, so the number of steps that a place is away from the root
never falls.
-/

set_option autoImplicit false
set_option relaxedAutoImplicit false

namespace ContentImport

namespace Hierarchy

variable {α : Type} {next : α → List α}

/-! ## Depth first -/

/-- What a recursive traversal finds that goes to places in turn. It passes over a place where it
was before; behind any other it first goes to the places next to it, and then on. -/
inductive Traverses (next : α → List α) : List α → List α → List α → Prop
  | done (visited : List α) : Traverses next visited [] []
  | pass {visited rest found : List α} {place : α} (seen : place ∈ visited)
      (later : Traverses next visited rest found) : Traverses next visited (place :: rest) found
  | enter {visited rest behind found : List α} {place : α} (new : place ∉ visited)
      (below : Traverses next (place :: visited) (next place) behind)
      (later : Traverses next (behind ++ place :: visited) rest found) :
      Traverses next visited (place :: rest) (place :: (behind ++ found))

variable [DecidableEq α] {places : List α}

private theorem descend_append (unvisited front back : List α) :
    descend next unvisited (front ++ back) = descend next unvisited front ++
      descend next (unvisited.diff (descend next unvisited front)) back := by
  induction unvisited, front using descend.induct next with
  | case1 unvisited => rw [descend, List.nil_append, List.nil_append, List.diff_nil]
  | case2 unvisited place rest held ih =>
    rw [List.cons_append, descend, if_pos held, descend, if_pos held, ← List.append_assoc, ih,
      List.diff_cons, List.cons_append]
  | case3 unvisited place rest gone ih =>
    rw [List.cons_append, descend, if_neg gone, ih, descend, if_neg gone]

private theorem descend_cons {unvisited : List α} {place : α} (held : place ∈ unvisited)
    (rest : List α) :
    descend next unvisited (place :: rest) =
      place :: (descend next (unvisited.erase place) (next place) ++
        descend next ((unvisited.erase place).diff
          (descend next (unvisited.erase place) (next place))) rest) := by
  rw [descend, if_pos held, descend_append]

/-- Among some places, those that are left are those that were not visited. -/
def Leaves (places unvisited visited : List α) : Prop :=
  unvisited.Nodup ∧ ∀ x ∈ places, x ∈ unvisited ↔ x ∉ visited

private theorem Leaves.enter {unvisited visited : List α} (leaves : Leaves places unvisited visited)
    (place : α) : Leaves places (unvisited.erase place) (place :: visited) := by
  refine ⟨leaves.1.erase place, ?_⟩
  intro x inside
  rw [leaves.1.mem_erase_iff, leaves.2 x inside, List.mem_cons, not_or]

private theorem Leaves.diff {unvisited visited : List α} (leaves : Leaves places unvisited visited)
    (found : List α) : Leaves places (unvisited.diff found) (found ++ visited) := by
  refine ⟨leaves.1.diff, ?_⟩
  intro x inside
  rw [leaves.1.mem_sdiff_iff, leaves.2 x inside, List.mem_append, not_or, and_comm]

section

variable (closed : ∀ a, ∀ b ∈ next a, b ∈ places)

include closed

private theorem Traverses.eq_descend {visited waiting found unvisited : List α}
    (traverses : Traverses next visited waiting found) (within : ∀ x ∈ waiting, x ∈ places)
    (leaves : Leaves places unvisited visited) : found = descend next unvisited waiting := by
  induction traverses generalizing unvisited with
  | done visited => rw [descend]
  | @pass visited rest found place seen _ ih =>
    obtain ⟨inside, insideRest⟩ := List.forall_mem_cons.mp within
    have gone : place ∉ unvisited := fun held => (leaves.2 place inside).mp held seen
    rw [descend, if_neg gone]
    exact ih insideRest leaves
  | @enter visited rest behind found place new _ _ ihBelow ihLater =>
    obtain ⟨inside, insideRest⟩ := List.forall_mem_cons.mp within
    have held : place ∈ unvisited := (leaves.2 place inside).mpr new
    have below := ihBelow (closed place) (leaves.enter place)
    have later := ihLater insideRest ((leaves.enter place).diff behind)
    rw [descend_cons held, ← below, ← later]

private theorem traverses_descend {visited unvisited : List α} (waiting : List α)
    (within : ∀ x ∈ waiting, x ∈ places) (leaves : Leaves places unvisited visited) :
    Traverses next visited waiting (descend next unvisited waiting) := by
  -- Going behind a place leaves fewer places, passing over one leaves fewer that wait.
  induction size : unvisited.length using Nat.strong_induction_on
    generalizing visited unvisited waiting with
  | _ size fewer =>
    subst size
    induction waiting with
    | nil =>
      rw [descend]
      exact .done visited
    | cons place rest ih =>
      obtain ⟨inside, insideRest⟩ := List.forall_mem_cons.mp within
      by_cases held : place ∈ unvisited
      · have shorter : (unvisited.erase place).length < unvisited.length := by
          have positive := List.length_pos_of_mem held
          rw [List.length_erase_of_mem held]
          omega
        rw [descend_cons held]
        refine .enter ((leaves.2 place inside).mp held) ?_ ?_
        · exact fewer _ shorter (next place) (closed place) (leaves.enter place) rfl
        · refine fewer _ ?_ rest insideRest ((leaves.enter place).diff _) rfl
          exact (List.diff_sublist _ _).length_le.trans_lt shorter
      · have seen : place ∈ visited := not_not.mp fun new => held ((leaves.2 place inside).mpr new)
        rw [descend, if_neg held]
        exact .pass seen (ih insideRest)

private theorem traverses_iff_eq_depthFirst (once : places.Nodup) (root : α) (found : List α) :
    Traverses next [root] (next root) found ↔ found = depthFirst next places root := by
  have leaves : Leaves places (places.filter (· ≠ root)) [root] := by
    refine ⟨once.filter _, ?_⟩
    intro x inside
    simp [inside]
  constructor
  · intro traverses
    exact traverses.eq_descend closed (closed root) leaves
  · rintro rfl
    exact traverses_descend closed (next root) (closed root) leaves

end

/-! ## Breadth first -/

/-- A number of steps leads from a root to a place. -/
inductive Leads (step : α → α → Prop) (root : α) : Nat → α → Prop
  | here : Leads step root 0 root
  | further {n : Nat} {a b : α} (path : Leads step root n a) (stepped : step a b) :
      Leads step root (n + 1) b

/-- The least number of steps that leads from a root to a place. -/
def IsDistance (step : α → α → Prop) (root x : α) (n : Nat) : Prop :=
  IsLeast {m | Leads step root m x} n

/-- The places of a queue where a walk goes, each at its first place. -/
def arrivals (unvisited : List α) : List α → List α
  | [] => []
  | place :: rest =>
    if place ∈ unvisited then place :: arrivals (unvisited.erase place) rest
    else arrivals unvisited rest

private theorem mem_arrivals {unvisited queue : List α} {x : α} :
    x ∈ arrivals unvisited queue ↔ x ∈ unvisited ∧ x ∈ queue := by
  induction queue generalizing unvisited with
  | nil => simp [arrivals]
  | cons place rest ih =>
    rw [arrivals]
    by_cases same : x = place
    · subst same
      by_cases held : x ∈ unvisited
      · simp [held]
      · simp [held, ih]
    · by_cases held : place ∈ unvisited
      · simp [held, ih, same, List.mem_erase_of_ne same]
      · simp [held, ih, same]

private theorem ascend_append (unvisited front back : List α) :
    ascend next unvisited (front ++ back) = arrivals unvisited front ++
      ascend next (unvisited.diff (arrivals unvisited front))
        (back ++ (arrivals unvisited front).flatMap next) := by
  induction front generalizing unvisited back with
  | nil => simp [arrivals]
  | cons place rest ih =>
    rw [List.cons_append, ascend, arrivals]
    by_cases held : place ∈ unvisited
    · rw [if_pos held, if_pos held, List.append_assoc, ih, List.cons_append, List.diff_cons,
        List.flatMap_cons, List.append_assoc]
    · rw [if_neg held, if_neg held, ih]

private theorem ascend_level (unvisited queue : List α) :
    ascend next unvisited queue = arrivals unvisited queue ++
      ascend next (unvisited.diff (arrivals unvisited queue))
        ((arrivals unvisited queue).flatMap next) :=
  calc ascend next unvisited queue
      = ascend next unvisited (queue ++ []) := by rw [List.append_nil]
    _ = _ := ascend_append unvisited queue []

/-- A walk stands before a level: those places are left that fewer steps do not lead to, and those
of the level wait. -/
structure Level (next : α → List α) (places : List α) (root : α) (n : Nat)
    (unvisited queue : List α) : Prop where
  once : unvisited.Nodup
  left : ∀ x, x ∈ unvisited ↔ x ∈ places ∧ ∀ m ≤ n, ¬ Leads (fun a b => b ∈ next a) root m x
  waiting : ∀ x ∈ unvisited, x ∈ queue ↔ Leads (fun a b => b ∈ next a) root (n + 1) x

namespace Level

variable {root : α} {n : Nat} {unvisited queue : List α}

private theorem first (once : places.Nodup) (root : α) :
    Level next places root 0 (places.filter (· ≠ root)) (next root) := by
  refine ⟨once.filter _, ?_, ?_⟩
  · intro x
    rw [List.mem_filter, decide_eq_true_iff]
    refine and_congr_right fun _ => ⟨?_, ?_⟩
    · rintro differs m least path
      obtain rfl := Nat.le_zero.mp least
      cases path
      exact differs rfl
    · rintro unled rfl
      exact unled 0 le_rfl .here
  · intro x _
    constructor
    · exact fun follows => .further .here follows
    · rintro (_ | ⟨path, follows⟩)
      cases path
      exact follows

private theorem isDistance (level : Level next places root n unvisited queue) {x : α}
    (arrives : x ∈ arrivals unvisited queue) :
    IsDistance (fun a b => b ∈ next a) root x (n + 1) := by
  obtain ⟨held, waits⟩ := mem_arrivals.mp arrives
  refine ⟨(level.waiting x held).mp waits, ?_⟩
  intro m path
  by_contra nearer
  exact ((level.left x).mp held).2 m (by omega) path

private theorem succ (level : Level next places root n unvisited queue)
    (closed : ∀ a, ∀ b ∈ next a, b ∈ places) :
    Level next places root (n + 1) (unvisited.diff (arrivals unvisited queue))
      ((arrivals unvisited queue).flatMap next) := by
  have arrives : ∀ x, x ∈ arrivals unvisited queue ↔
      x ∈ unvisited ∧ Leads (fun a b => b ∈ next a) root (n + 1) x := fun x => by
    rw [mem_arrivals]
    exact and_congr_right (level.waiting x)
  have left : ∀ x, x ∈ unvisited.diff (arrivals unvisited queue) ↔
      x ∈ places ∧ ∀ m ≤ n + 1, ¬ Leads (fun a b => b ∈ next a) root m x := fun x => by
    rw [level.once.mem_sdiff_iff, arrives, level.left]
    constructor
    · rintro ⟨⟨inside, unled⟩, behind⟩
      refine ⟨inside, fun m least path => ?_⟩
      rcases Nat.le_succ_iff.mp least with nearer | rfl
      · exact unled m nearer path
      · exact behind ⟨⟨inside, unled⟩, path⟩
    · rintro ⟨inside, unled⟩
      refine ⟨⟨inside, fun m least => unled m (by omega)⟩, ?_⟩
      exact fun behind => unled (n + 1) le_rfl behind.2
  refine ⟨level.once.diff, left, ?_⟩
  intro x remains
  rw [List.mem_flatMap]
  constructor
  · rintro ⟨a, arrived, follows⟩
    exact .further ((arrives a).mp arrived).2 follows
  · rintro (_ | ⟨path, follows⟩)
    rename_i a
    refine ⟨a, (arrives a).mpr ⟨?_, path⟩, follows⟩
    -- Fewer steps to the place before would be fewer steps to this one.
    refine (level.left a).mpr ⟨?_, fun m least shorter => ?_⟩
    · cases path with
      | further _ stepped => exact closed _ _ stepped
    · exact ((left x).mp remains).2 (m + 1) (by omega) (.further shorter follows)

private theorem distances (level : Level next places root n unvisited queue)
    (closed : ∀ a, ∀ b ∈ next a, b ∈ places) :
    ∃ distances : List Nat,
      List.Forall₂ (IsDistance (fun a b => b ∈ next a) root) (ascend next unvisited queue)
        distances ∧ distances.Pairwise (· ≤ ·) ∧ ∀ d ∈ distances, n < d := by
  induction size : unvisited.length using Nat.strong_induction_on
    generalizing n unvisited queue with
  | _ size fewer =>
    subst size
    rcases List.eq_nil_or_concat' (arrivals unvisited queue) with none | ⟨before, x, some⟩
    · rw [ascend_level, none, List.flatMap_nil, ascend]
      exact ⟨[], .nil, .nil, by simp⟩
    · have arrives : x ∈ arrivals unvisited queue := by simp [some]
      have shorter : (unvisited.diff (arrivals unvisited queue)).length < unvisited.length := by
        refine (List.diff_sublist _ _).length_le.lt_of_ne fun same => ?_
        have all := (List.diff_sublist unvisited _).eq_of_length same
        have remains : x ∈ unvisited.diff (arrivals unvisited queue) :=
          all.symm ▸ (mem_arrivals.mp arrives).1
        exact (level.once.mem_sdiff_iff.mp remains).2 arrives
      obtain ⟨later, found, rises, above⟩ := fewer _ shorter (level.succ closed) rfl
      refine ⟨(arrivals unvisited queue).map (fun _ => n + 1) ++ later, ?_, ?_, ?_⟩
      · rw [ascend_level]
        refine List.rel_append ?_ found
        refine List.forall₂_map_right_iff.mpr (List.forall₂_same.mpr ?_)
        exact fun y arrived => level.isDistance arrived
      · refine List.pairwise_append.mpr ⟨?_, rises, ?_⟩
        · exact List.pairwise_map.mpr (List.pairwise_of_forall fun _ _ => le_rfl)
        · intro d here e behind
          obtain ⟨_, -, rfl⟩ := List.mem_map.mp here
          exact (above e behind).le
      · intro d listed
        rcases List.mem_append.mp listed with here | behind
        · obtain ⟨_, -, rfl⟩ := List.mem_map.mp here
          omega
        · exact Nat.lt_of_succ_lt (above d behind)

end Level

private theorem distances_breadthFirst (once : places.Nodup)
    (closed : ∀ a, ∀ b ∈ next a, b ∈ places)
    (root : α) : ∃ distances : List Nat,
      List.Forall₂ (IsDistance (fun a b => b ∈ next a) root) (breadthFirst next places root)
        distances ∧ distances.Pairwise (· ≤ ·) := by
  obtain ⟨distances, found, rises, -⟩ := (Level.first once root).distances closed
  exact ⟨distances, found, rises⟩

end Hierarchy

namespace Graph

open Ontology

/-! ## Closures of statements -/

private theorem Scan.select_eq_ofList (elements : List Element) (wanted : Element → Bool) :
    select elements wanted = Distinct.ofList ((elements.filter wanted).filterMap Element.iri) := by
  induction elements using List.reverseRecOn with
  | nil => rfl
  | append_singleton elements e ih =>
    rw [select_concat, List.filter_append, List.filterMap_append, Distinct.ofList_append, ← ih]
    cases named : e.iri with
    | none => cases chosen : wanted e <;> simp [named, chosen, Distinct.addAll]
    | some iri => cases chosen : wanted e <;> simp [named, chosen, Distinct.addAll]

/-- The classes that descriptions put below a class, in document order. -/
def statedSubclasses (elements : List Element) (c : Iri) : List Iri :=
  Distinct.ofList ((elements.filter fun e =>
    ⟨rdfsSubClassOf, .resource c⟩ ∈ e.statements).filterMap Element.iri)

private theorem directSubclasses_eq (strategy : AccessStrategy) (anchors : Anchors)
    (notices : List String) (elements : List Element) (c : Iri) :
    (ofElements strategy anchors notices elements).directSubclasses c =
      statedSubclasses elements c := by
  obtain ⟨other, same⟩ := ofElements_eq_scanned strategy anchors notices elements
  have wanted : (fun e : Element => e.superclasses.contains c) =
      fun e => decide (⟨rdfsSubClassOf, .resource c⟩ ∈ e.statements) := by
    funext e
    rw [List.contains_eq_mem, decide_eq_decide, mem_superclasses_iff]
  rw [same, statedSubclasses, ← Scan.select_eq_ofList, ← wanted]
  rfl

/-- The closures of a graph are in order, whatever its statements are, cycles included. The classes
below a class are in the one order in which a recursive traversal ends that visits the classes
directly below each in document order. Those above it are listed once each, and never come nearer to
it from one to the next. -/
theorem closures_ordered (strategy : AccessStrategy) (anchors : Anchors) (notices : List String)
    (elements : List Element) :
    let g := ofElements strategy anchors notices elements
    (∀ c found, Hierarchy.Traverses (statedSubclasses elements) [c] (statedSubclasses elements c)
      found ↔ found = g.allSubclasses c) ∧
    ∀ c, (g.allSuperclasses c).Nodup ∧
      (∀ d, d ∈ g.allSuperclasses c ↔ d ≠ c ∧ PathUp elements c d) ∧
        ∃ distances : List Nat,
          List.Forall₂ (Hierarchy.IsDistance (StatedBelow elements) c) (g.allSuperclasses c)
            distances ∧ distances.Pairwise (· ≤ ·) := by
  intro g
  have coherent := ofElements_coherent strategy anchors notices elements
  have once := linked_nodup strategy anchors notices elements
  constructor
  · intro c found
    have below : statedSubclasses elements = g.directSubclasses :=
      (funext (directSubclasses_eq strategy anchors notices elements)).symm
    rw [below]
    exact Hierarchy.traverses_iff_eq_depthFirst coherent.linked_below once c found
  · intro c
    refine ⟨Hierarchy.nodup_breadthFirst once c, fun d => ?_, ?_⟩
    · rw [coherent.mem_allSuperclasses_iff, leadsUp_iff]
    · rw [← statedBelow_eq strategy anchors notices elements]
      exact Hierarchy.distances_breadthFirst once coherent.linked_above c

end Graph

end ContentImport
