import ContentImport.Markup.Event
import ContentImport.Proofs.Attempt
import Mathlib.Data.List.TakeWhile

/-!
Documents as trees. An element holds what stands between its start tag and its end tag, to any
depth, and the events of a document are those of its tree. Events after a start tag either close the
element, and then they begin with the events of its content, or they leave it open.
-/

set_option autoImplicit false
set_option relaxedAutoImplicit false

namespace ContentImport.Markup

namespace Event

/-- Whether an event neither begins an element nor ends one. -/
def isQuiet : Event → Bool
  | .opened _ | .whole _ | .closed _ => false
  | _ => true

/-- Whether an event is a document type, which may declare entities. -/
def isDoctype : Event → Bool
  | .doctype _ => true
  | _ => false

/-- Events without a document type: they declare no entities. -/
abbrev Plain (events : List Event) : Prop :=
  ∀ event ∈ events, event.isDoctype = false

/-- How many elements are open within an element after an event, with the number before it; none
where the event ends the element itself. -/
def depthAfter : Event → Nat → Option Nat
  | .opened _, depth => some (depth + 1)
  | .closed _, 0 => none
  | .closed _, depth + 1 => some depth
  | _, depth => some depth

theorem depthAfter_quiet {event : Event} (quiet : event.isQuiet = true) (depth : Nat) :
    event.depthAfter depth = some depth := by
  cases event <;> first | rfl | cases quiet

/-- Whether events end an element within which a number of elements are open. -/
def closes : Nat → List Event → Bool
  | _, [] => false
  | depth, event :: rest =>
    match event.depthAfter depth with
    | some depth => closes depth rest
    | none => true

end Event

/-- What can stand in an element. -/
inductive Node where
  /-- An element with its content and the name in its end tag. -/
  | element (tag : Tag) (content : List Node) (name : Bytes)
  /-- An element without content. -/
  | whole (tag : Tag)
  | quiet (event : Event) (isQuiet : event.isQuiet = true)

namespace Node

mutual

def events : Node → List Event
  | .element tag content name => .opened tag :: (eventsOf content ++ [.closed name])
  | .whole tag => [.whole tag]
  | .quiet event _ => [event]

/-- The events of the content of an element, in document order. -/
def eventsOf : List Node → List Event
  | [] => []
  | node :: rest => node.events ++ eventsOf rest

end

theorem plain_eventsOf_cons {node : Node} {rest : List Node} :
    Event.Plain (eventsOf (node :: rest)) ↔ Event.Plain node.events ∧ Event.Plain (eventsOf rest) :=
  List.forall_mem_append

/-- Induction on content: elements within elements as well as what follows them. -/
theorem content_induction {motive : List Node → Prop} (nil : motive [])
    (element : ∀ tag content name rest, motive content → motive rest →
      motive (.element tag content name :: rest))
    (whole : ∀ tag rest, motive rest → motive (.whole tag :: rest))
    (quiet : ∀ event isQuiet rest, motive rest → motive (.quiet event isQuiet :: rest)) :
    ∀ content, motive content
  | [] => nil
  | .element tag content name :: rest =>
    element tag content name rest (content_induction nil element whole quiet content)
      (content_induction nil element whole quiet rest)
  | .whole tag :: rest => whole tag rest (content_induction nil element whole quiet rest)
  | .quiet event isQuiet :: rest =>
    quiet event isQuiet rest (content_induction nil element whole quiet rest)

end Node

/-- An element in a document. -/
structure Branch where
  tag : Tag
  content : List Node
  /-- The name in its end tag, unless its start tag is also its end. -/
  ending : Option Bytes
  isWhole : ending = none → content = []

/-- The event of a start tag; `whole` where the tag is also its end. -/
def Event.ofStart (tag : Tag) (whole : Bool) : Event :=
  if whole then .whole tag else .opened tag

namespace Branch

def ofNode? : Node → Option Branch
  | .element tag content name => some ⟨tag, content, some name, nofun⟩
  | .whole tag => some ⟨tag, [], none, fun _ => rfl⟩
  | .quiet _ _ => none

def children (content : List Node) : List Branch :=
  content.filterMap ofNode?

/-- The events of an element behind its start tag. -/
def inner (b : Branch) : List Event :=
  match b.ending with
  | some name => Node.eventsOf b.content ++ [.closed name]
  | none => []

def events (b : Branch) : List Event :=
  Event.ofStart b.tag b.ending.isNone :: b.inner

theorem events_of_ending {b : Branch} {name : Bytes} (ended : b.ending = some name) :
    b.events = .opened b.tag :: (Node.eventsOf b.content ++ [.closed name]) := by
  rw [events, inner, ended]
  rfl

theorem events_of_ofNode? {node : Node} {b : Branch} (child : ofNode? node = some b) :
    node.events = b.events := by
  cases node <;> cases child <;> rfl

theorem children_cons_some {node : Node} {b : Branch} (child : ofNode? node = some b)
    (rest : List Node) : children (node :: rest) = b :: children rest :=
  List.filterMap_cons_some child

theorem children_cons_none {node : Node} (other : ofNode? node = none) (rest : List Node) :
    children (node :: rest) = children rest :=
  List.filterMap_cons_none other

end Branch

/-- The tree of a document. -/
structure Tree where
  /-- What stands before the root. -/
  prolog : List Event
  isQuiet : ∀ event ∈ prolog, event.isQuiet = true
  root : Branch
  /-- Everything after the root. -/
  epilog : List Event

def Tree.events (tree : Tree) : List Event :=
  tree.prolog ++ tree.root.events ++ tree.epilog

namespace Event

private theorem closes_eventsOf (content : List Node) (depth : Nat) (rest : List Event) :
    closes depth (Node.eventsOf content ++ rest) = closes depth rest := by
  induction content using Node.content_induction generalizing depth rest with
  | nil => rfl
  | element tag content name others ihContent ihOthers =>
    simp only [Node.eventsOf, Node.events, List.cons_append, List.append_assoc, closes, depthAfter,
      ihContent, ihOthers, List.nil_append]
  | whole tag others ih =>
    simp only [Node.eventsOf, Node.events, List.cons_append, List.nil_append, closes, depthAfter, ih]
  | quiet event isQuiet others ih =>
    simp only [Node.eventsOf, Node.events, List.cons_append, List.nil_append, closes,
      depthAfter_quiet isQuiet, ih]

private theorem exists_content_of_closes (events : List Event) (depth : Nat)
    (closing : closes depth events = true) :
    ∃ content name rest, events = Node.eventsOf content ++ .closed name :: rest ∧
      ∀ outer, depth = outer + 1 → closes outer rest = true := by
  -- An element in the content takes up a part of the events, and its siblings stand behind it.
  induction h : events.length using Nat.strongRecOn generalizing events depth with
  | ind length ih =>
    cases events with
    | nil => cases closing
    | cons event rest =>
      have shorter : rest.length < length := by
        rw [← h]
        exact Nat.lt_succ_self _
      by_cases quiet : event.isQuiet = true
      · rw [closes, depthAfter_quiet quiet] at closing
        obtain ⟨content, name, after, rfl, outside⟩ := ih _ shorter rest depth closing rfl
        exact ⟨.quiet event quiet :: content, name, after, rfl, outside⟩
      · cases event with
        | opened tag =>
          obtain ⟨inner, name, after, rfl, outside⟩ := ih _ shorter rest (depth + 1) closing rfl
          have further : after.length < length := by
            simp only [List.length_append, List.length_cons] at shorter
            omega
          obtain ⟨content, name', after', rfl, outside'⟩ :=
            ih _ further after depth (outside depth rfl) rfl
          refine ⟨.element tag inner name :: content, name', after', ?_, outside'⟩
          simp [Node.eventsOf, Node.events]
        | whole tag =>
          obtain ⟨content, name, after, rfl, outside⟩ := ih _ shorter rest depth closing rfl
          exact ⟨.whole tag :: content, name, after, rfl, outside⟩
        | closed name =>
          refine ⟨[], name, rest, rfl, ?_⟩
          rintro outer rfl
          exact closing
        | _ => exact absurd rfl quiet

private theorem closes_iff (events : List Event) :
    closes 0 events = true ↔
      ∃ content name rest, events = Node.eventsOf content ++ .closed name :: rest := by
  constructor
  · intro closing
    obtain ⟨content, name, rest, same, _⟩ := exists_content_of_closes events 0 closing
    exact ⟨content, name, rest, same⟩
  · rintro ⟨content, name, rest, rfl⟩
    rw [closes_eventsOf]
    rfl

private theorem ofToken_outside {token : Token} {event : Event} {around : List OpenElement}
    (met : ofToken [] token = .ok (event, around)) :
    (∃ tag, event = .opened tag ∨ event = .whole tag) ∨ event.isQuiet = true ∧ around = [] := by
  cases token with
  | startTag content =>
    cases slash : withoutSlash? content with
    | none =>
      simp only [ofToken, slash] at met
      obtain ⟨tag, _, same⟩ := Attempt.map_eq_ok.mp met
      exact .inl ⟨tag, .inl (Prod.mk.inj same).1.symm⟩
    | some content =>
      simp only [ofToken, slash] at met
      obtain ⟨tag, _, same⟩ := Attempt.map_eq_ok.mp met
      exact .inl ⟨tag, .inr (Prod.mk.inj same).1.symm⟩
  | endTag content => cases met
  | _ =>
    obtain ⟨rfl, rfl⟩ := Prod.mk.inj (Except.ok.inj met)
    exact .inr ⟨rfl, rfl⟩

private theorem ofTokens_first (fault : Option Fault) (tokens : List Token) :
    ∀ event ∈ ((ofTokens fault [] tokens).items.dropWhile isQuiet).head?,
      ∃ tag, event = .opened tag ∨ event = .whole tag := by
  induction tokens with
  | nil => simp [ofTokens]
  | cons token tokens ih =>
    rw [ofTokens]
    cases met : ofToken [] token with
    | error _ => simp
    | ok outcome =>
      obtain ⟨event, around⟩ := outcome
      simp only [Sequence.put?]
      rcases ofToken_outside met with ⟨tag, begins⟩ | ⟨quiet, rfl⟩
      · have kept : event.isQuiet = false := by rcases begins with rfl | rfl <;> rfl
        rw [List.dropWhile_cons_of_neg (by simp [kept])]
        rintro _ ⟨⟩
        exact ⟨tag, begins⟩
      · rw [List.dropWhile_cons_of_pos quiet]
        exact ih

/-- A document has no element, or it is that of a tree, or it ends within its root. -/
theorem scan_cases (document : Bytes) :
    (∀ event ∈ (scan document).items, event.isQuiet = true) ∨
      (∃ tree : Tree, (scan document).items = tree.events) ∨
      ∃ front tag inside, (scan document).items = front ++ .opened tag :: inside ∧
        (∀ event ∈ front, event.isQuiet = true) ∧ closes 0 inside = false := by
  have first := ofTokens_first (Token.scan document).fault (Token.scan document).items
  have parts : (scan document).items.takeWhile isQuiet ++ (scan document).items.dropWhile isQuiet =
      (scan document).items := List.takeWhile_append_dropWhile
  have quiet : ∀ event ∈ (scan document).items.takeWhile isQuiet, event.isQuiet = true :=
    fun event member => List.all_eq_true.mp List.all_takeWhile event member
  generalize (scan document).items.takeWhile isQuiet = front at parts quiet
  change ∀ event ∈ ((scan document).items.dropWhile isQuiet).head?, _ at first
  generalize (scan document).items.dropWhile isQuiet = rest at parts first
  rw [← parts]
  cases rest with
  | nil =>
    rw [List.append_nil]
    exact .inl quiet
  | cons event rest =>
    obtain ⟨tag, rfl | rfl⟩ := first event rfl
    · by_cases closing : closes 0 rest = true
      · obtain ⟨content, name, epilog, rfl⟩ := (closes_iff rest).mp closing
        refine .inr (.inl ⟨⟨front, quiet, ⟨tag, content, some name, nofun⟩, epilog⟩, ?_⟩)
        simp [Tree.events, Branch.events, Branch.inner, ofStart]
      · exact .inr (.inr ⟨front, tag, rest, rfl, quiet, Bool.not_eq_true _ ▸ closing⟩)
    · refine .inr (.inl ⟨⟨front, quiet, ⟨tag, [], none, fun _ => rfl⟩, rest⟩, ?_⟩)
      simp [Tree.events, Branch.events, Branch.inner, ofStart]

end Event

end ContentImport.Markup
