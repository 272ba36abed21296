import ContentImport.Ontology.Reading
import ContentImport.Proofs.Markup.Tree

/-!
Runs of a reader over events. A reader keeps track of how deep it is: the number of elements that it
takes to be open is the number that the events leave open, wherever it stands. What it reads of the
markup nested in a property is no more than that depth and, where the markup is a value, its text.
-/

set_option autoImplicit false
set_option relaxedAutoImplicit false

namespace ContentImport.Ontology

open ContentImport.Markup (Bytes Event Node)

/-! ## Events one after the other -/

namespace Reader

/-- Take events, giving the elements whose descriptions end in them. -/
def run (r : Reader) : List Event → Except ReadFault (List Element × Reader)
  | [] => .ok ([], r)
  | event :: rest =>
    match r.step event with
    | .error fault => .error fault
    | .ok (element, next) =>
      (next.run rest).map fun (elements, last) => (element.toList ++ elements, last)

variable {r next last : Reader} {event : Event} {front rest events : List Event}
  {element : Option Element} {elements : List Element}

theorem run_cons :
    r.run (event :: rest) = .ok (elements, last) ↔
      ∃ element next others, r.step event = .ok (element, next) ∧
        next.run rest = .ok (others, last) ∧ element.toList ++ others = elements := by
  rw [run]
  cases stepped : r.step event with
  | error fault => simp
  | ok outcome =>
    obtain ⟨element, next⟩ := outcome
    simp only [Attempt.map_eq_ok, Prod.exists, Prod.mk.injEq, Except.ok.injEq]
    constructor
    · rintro ⟨others, last, later, rfl, rfl⟩
      exact ⟨element, next, others, ⟨rfl, rfl⟩, later, rfl⟩
    · rintro ⟨element, next, others, ⟨rfl, rfl⟩, later, rfl⟩
      exact ⟨others, last, later, rfl, rfl⟩

theorem run_singleton :
    r.run [event] = .ok (elements, last) ↔
      ∃ element, r.step event = .ok (element, last) ∧ element.toList = elements := by
  rw [run_cons]
  constructor
  · rintro ⟨element, next, others, stepped, ended, rfl⟩
    obtain ⟨rfl, rfl⟩ := Prod.mk.inj (Except.ok.inj ended)
    exact ⟨element, stepped, (List.append_nil _).symm⟩
  · rintro ⟨element, stepped, rfl⟩
    exact ⟨element, last, [], stepped, rfl, List.append_nil _⟩

theorem run_append :
    r.run (front ++ rest) = .ok (elements, last) ↔
      ∃ first middle others, r.run front = .ok (first, middle) ∧
        middle.run rest = .ok (others, last) ∧ first ++ others = elements := by
  induction front generalizing r elements with
  | nil => simp [run]
  | cons event front ih =>
    simp only [List.cons_append, run_cons, ih]
    constructor
    · rintro ⟨element, next, _, stepped, ⟨first, middle, others, ran, later, rfl⟩, rfl⟩
      exact ⟨_, middle, others, ⟨element, next, first, stepped, ran, rfl⟩, later, by simp⟩
    · rintro ⟨_, middle, others, ⟨element, next, first, stepped, ran, rfl⟩, later, rfl⟩
      exact ⟨element, next, _, stepped, ⟨first, middle, others, ran, later, rfl⟩, by simp⟩

theorem run_finished (finished : r.place = .finished) : r.run events = .ok ([], r) := by
  have stays : ∀ event, r.step event = .ok (none, r) := by
    intro event
    rw [step, finished]
  induction events with
  | nil => rfl
  | cons event rest ih => exact run_cons.mpr ⟨none, r, [], stays event, ih, rfl⟩

end Reader

theorem Reading.ofEvents_cases (fault : Option Markup.Fault) (r : Reader) (events : List Event) :
    (∃ elements last, r.run events = .ok (elements, last) ∧
      ofEvents fault r events = ⟨elements, last.notices, last.faultAtEnd fault⟩) ∨
    ∃ front event rest elements last stop, events = front ++ event :: rest ∧
      r.run front = .ok (elements, last) ∧ last.step event = .error stop ∧
      ofEvents fault r events = ⟨elements, last.notices, some stop⟩ := by
  induction events generalizing r with
  | nil => exact .inl ⟨[], r, rfl, rfl⟩
  | cons event rest ih =>
    rw [ofEvents]
    cases stepped : r.step event with
    | error stop => exact .inr ⟨[], event, rest, [], r, stop, rfl, rfl, stepped, rfl⟩
    | ok outcome =>
      obtain ⟨element, next⟩ := outcome
      rcases ih next with ⟨elements, last, ran, same⟩ |
        ⟨front, halt, after, elements, last, stop, rfl, ran, stopped, same⟩
      · refine .inl ⟨element.toList ++ elements, last, ?_, ?_⟩
        · exact Reader.run_cons.mpr ⟨element, next, elements, stepped, ran, rfl⟩
        · simp only [same, put?]
      · refine .inr ⟨event :: front, halt, after, element.toList ++ elements, last, stop, rfl, ?_,
          stopped, ?_⟩
        · exact Reader.run_cons.mpr ⟨element, next, elements, stepped, ran, rfl⟩
        · simp only [same, put?]

theorem Reading.exists_run {fault : Option Markup.Fault} {r : Reader} {events : List Event}
    (read : (ofEvents fault r events).fault = none) :
    ∃ last, r.run events = .ok ((ofEvents fault r events).elements, last) ∧
      (ofEvents fault r events).notices = last.notices ∧ last.faultAtEnd fault = none := by
  rcases ofEvents_cases fault r events with ⟨elements, last, ran, same⟩ |
    ⟨_, _, _, _, _, _, _, _, _, same⟩
  · rw [same] at read ⊢
    exact ⟨last, ran, rfl, read⟩
  · rw [same] at read
    cases read

/-! ## Properties by their attributes -/

/-- What the attributes of a property say about its value. -/
inductive PropertyKind where
  /-- It is a resource, which is named. -/
  | resource (name : String)
  /-- It is a blank node. -/
  | blankNode
  /-- It is the content of the property as markup. -/
  | markup
  /-- It is the text of the property, if that is all there is in it. -/
  | text
  deriving DecidableEq

def OpenTag.kind (tag : OpenTag) : PropertyKind :=
  match tag.attribute? (rdf ++ "resource") with
  | some name => .resource name
  | none =>
    if (tag.attribute? (rdf ++ "nodeID")).isSome then .blankNode
    else if tag.attribute? (rdf ++ "parseType") = some "Literal" then .markup
    else .text

namespace Reader

variable {r next : Reader} {event : Event} {element : Option Element} {e : Element} {tag : OpenTag}
  {whole : Bool}

/-- The reader in the content of a property whose value is known, or behind the property. -/
def pass (r : Reader) (whole : Bool) (e : Element) : Reader :=
  { r with place := if whole then .description e else .passed e 0 }

/-- The reader behind the start tag of a property with the given predicate, by its kind. -/
def propertyBegun (r : Reader) (e : Element) (tag : OpenTag) (whole : Bool) (predicate : Iri) :
    Except ReadFault Reader :=
  match tag.kind with
  | .resource name =>
    (Reference.resolve r.base name).map fun iri => r.pass whole (e.push predicate (.resource iri))
  | .blankNode => .ok (r.pass whole e)
  | .markup =>
    let l : Literal := ⟨"", some rdfXmlLiteral, none⟩
    if whole then .ok { r with place := .description (e.push predicate (.literal l)) }
    else .ok { r with place := .markup e predicate [] 0 }
  | .text =>
    if whole then r.endProperty e ⟨predicate, tag⟩ [] false
    else .ok { r with place := .property e ⟨predicate, tag⟩ [] false }

theorem beginProperty_eq (r : Reader) (e : Element) (tag : OpenTag) (whole : Bool) :
    r.beginProperty e tag whole = nameIri tag.name >>= r.propertyBegun e tag whole := by
  unfold beginProperty propertyBegun OpenTag.kind
  refine congrArg (Bind.bind (nameIri tag.name)) (funext fun predicate => ?_)
  cases tag.attribute? (rdf ++ "resource") with
  | some name => cases whole <;> rfl
  | none =>
    by_cases blank : (tag.attribute? (rdf ++ "nodeID")).isSome
    · simp only [blank, if_true]
      cases whole <;> rfl
    · by_cases literal : tag.attribute? (rdf ++ "parseType") = some "Literal"
      · simp only [blank, literal]
        cases whole <;> rfl
      · simp only [blank, literal]
        cases whole <;> rfl

theorem endProperty_cases {p : OpenProperty} {text : List Char} {nested : Bool}
    (ended : r.endProperty e p text nested = .ok next) :
    (nested || (p.tag.attribute? (rdf ++ "parseType")).isSome) = true ∧
        next = { r with
          place := .description e
          notices := Distinct.add r.notices (notice e p.predicate) } ∨
      (nested || (p.tag.attribute? (rdf ++ "parseType")).isSome) = false ∧
        ∃ l, literalOf r.base p.tag text = .ok l ∧
          next = { r with place := .description (e.push p.predicate (.literal l)) } := by
  unfold endProperty at ended
  split at ended
  · next leftOut => exact .inl ⟨leftOut, (Except.ok.inj ended).symm⟩
  · next stated =>
    obtain ⟨l, made, rfl⟩ := Attempt.map_eq_ok.mp ended
    exact .inr ⟨Bool.not_eq_true _ ▸ stated, l, made, rfl⟩

end Reader

/-! ## How deep a reader is -/

/-- The number of elements open within a description, at a place in one. -/
def Place.within? : Place → Option Nat
  | .description _ => some 0
  | .property .. => some 1
  | .nested _ _ _ depth => some (depth + 2)
  | .passed _ depth => some (depth + 1)
  | .markup _ _ _ depth => some (depth + 1)
  | _ => none

/-- Whether events are decoded at a place: neither in markup that is a value nor after the root. -/
def Place.decodes : Place → Bool
  | .markup .. | .finished => false
  | _ => true

/-- The number of elements open within the root, or within the description that stands in its
place; none before its start tag and after its end tag. -/
def Reader.depth? (r : Reader) : Option Nat :=
  match r.place with
  | .root => some 0
  | place => place.within?.map ((if r.bare then 0 else 1) + ·)

/-- How many elements are open after what an event means. -/
def Signal.depthAfter : Signal → Nat → Option Nat
  | .opened _, depth => some (depth + 1)
  | .closed, 0 => none
  | .closed, depth + 1 => some depth
  | _, depth => some depth

theorem Signal.depthAfter_ofEvent {entities : Markup.Entities} {event : Event} {signal : Signal}
    (decoded : ofEvent entities event = .ok signal) : signal.depthAfter = event.depthAfter := by
  funext depth
  cases event with
  | opened tag | whole tag | text content =>
    obtain ⟨_, _, rfl⟩ := Attempt.map_eq_ok.mp decoded
    rfl
  | closed name =>
    obtain rfl := Except.ok.inj decoded
    cases depth <;> rfl
  | _ =>
    obtain rfl := Except.ok.inj decoded
    rfl

namespace Reader

variable {r next : Reader} {event : Event} {element : Option Element} {e : Element} {tag : OpenTag}
  {whole : Bool}

/-- The root has begun, or the description that stands in its place. -/
structure Begun (r : Reader) : Prop where
  place : r.place ≠ .prolog
  root : r.place = .root → r.bare = false

/-- A reader goes on where another stood: its depth changes as it should, and what holds for the
whole document stays. -/
structure GoesOn (depthAfter : Nat → Option Nat) (r next : Reader) : Prop where
  base : next.base = r.base
  bare : next.bare = r.bare
  entities : next.entities = r.entities
  begun : next.Begun
  depth : next.depth? = r.depth?.bind depthAfter

private theorem beginProperty_frame (begun : r.beginProperty e tag whole = .ok next) :
    ∃ place notices, next = { r with place, notices } ∧
      place.within? = some (if whole then 0 else 1) := by
  rw [beginProperty_eq] at begun
  obtain ⟨predicate, _, begun⟩ := Attempt.bind_eq_ok.mp begun
  unfold propertyBegun at begun
  split at begun
  · obtain ⟨iri, _, rfl⟩ := Attempt.map_eq_ok.mp begun
    exact ⟨_, r.notices, rfl, by cases whole <;> rfl⟩
  · obtain rfl := Except.ok.inj begun
    exact ⟨_, r.notices, rfl, by cases whole <;> rfl⟩
  · cases whole <;> obtain rfl := Except.ok.inj begun <;> exact ⟨_, r.notices, rfl, rfl⟩
  · cases whole with
    | true =>
      rcases endProperty_cases begun with ⟨_, rfl⟩ | ⟨_, _, _, rfl⟩
      · exact ⟨_, _, rfl, rfl⟩
      · exact ⟨_, r.notices, rfl, rfl⟩
    | false =>
      obtain rfl := Except.ok.inj begun
      exact ⟨_, r.notices, rfl, rfl⟩

private theorem beginDescription_frame
    (begun : r.beginDescription tag whole = .ok (element, next)) :
    ∃ e, next = { r with place := if whole then r.afterDescription else .description e } := by
  obtain ⟨e, _, same⟩ := Attempt.map_eq_ok.mp begun
  cases whole <;> obtain ⟨rfl, rfl⟩ := Prod.mk.inj same <;> exact ⟨e, rfl⟩

private theorem afterDescription_begun (r : Reader) :
    ({ r with place := r.afterDescription } : Reader).Begun := by
  cases bare : r.bare <;> constructor <;> simp [afterDescription, bare]

theorem inDescription {depth : Nat} (within : r.place.within? = some depth) :
    r.Begun ∧ r.depth? = some ((if r.bare then 0 else 1) + depth) := by
  refine ⟨⟨fun placed => ?_, fun placed => ?_⟩, ?_⟩
  · rw [placed] at within
    cases within
  · rw [placed] at within
    cases within
  · unfold depth?
    split
    · next placed =>
      rw [placed] at within
      cases within
    · rw [within, Option.map_some]

private theorem goesOn_inDescription {depthAfter : Nat → Option Nat} {place : Place}
    {notices : List String} {depth : Nat} (within : place.within? = some depth)
    (deeper : r.depth?.bind depthAfter = some ((if r.bare then 0 else 1) + depth)) :
    GoesOn depthAfter r { r with place, notices } := by
  obtain ⟨begun, deep⟩ := inDescription (r := { r with place, notices }) within
  exact ⟨rfl, rfl, rfl, begun, deep.trans deeper.symm⟩

private theorem take_goesOn {signal : Signal} (begun : r.Begun)
    (decodes : r.place.decodes = true) (taken : r.take signal = .ok (element, next)) :
    GoesOn signal.depthAfter r next := by
  obtain ⟨place, base, bare, entities, notices⟩ := r
  cases place with
  | prolog => exact absurd rfl begun.place
  | markup | finished => cases decodes
  | root =>
    obtain rfl : bare = false := begun.root rfl
    cases signal with
    | opened tag =>
      obtain ⟨e, rfl⟩ := beginDescription_frame taken
      exact goesOn_inDescription rfl rfl
    | whole tag =>
      obtain ⟨e, rfl⟩ := beginDescription_frame taken
      exact ⟨rfl, rfl, rfl, ⟨nofun, fun _ => rfl⟩, rfl⟩
    | closed =>
      obtain ⟨rfl, rfl⟩ := Prod.mk.inj (Except.ok.inj taken)
      exact ⟨rfl, rfl, rfl, ⟨nofun, nofun⟩, rfl⟩
    | _ =>
      obtain ⟨rfl, rfl⟩ := Prod.mk.inj (Except.ok.inj taken)
      exact ⟨rfl, rfl, rfl, begun, rfl⟩
  | description e =>
    cases signal with
    | opened tag | whole tag =>
      obtain ⟨_, begins, same⟩ := Attempt.map_eq_ok.mp taken
      obtain ⟨rfl, rfl⟩ := Prod.mk.inj same
      obtain ⟨place, notices, rfl, within⟩ := beginProperty_frame begins
      exact goesOn_inDescription within rfl
    | closed =>
      obtain ⟨rfl, rfl⟩ := Prod.mk.inj (Except.ok.inj taken)
      refine ⟨rfl, rfl, rfl, afterDescription_begun _, ?_⟩
      cases bare <;> rfl
    | _ =>
      obtain ⟨rfl, rfl⟩ := Prod.mk.inj (Except.ok.inj taken)
      exact ⟨rfl, rfl, rfl, begun, rfl⟩
  | property e p text nested =>
    cases signal with
    | closed =>
      obtain ⟨_, ended, same⟩ := Attempt.map_eq_ok.mp taken
      obtain ⟨rfl, rfl⟩ := Prod.mk.inj same
      rcases endProperty_cases ended with ⟨_, rfl⟩ | ⟨_, _, _, rfl⟩ <;>
        exact goesOn_inDescription rfl rfl
    | _ =>
      obtain ⟨rfl, rfl⟩ := Prod.mk.inj (Except.ok.inj taken)
      exact goesOn_inDescription rfl rfl
  | nested e p text depth | passed e depth =>
    cases signal with
    | closed =>
      cases depth <;> obtain ⟨rfl, rfl⟩ := Prod.mk.inj (Except.ok.inj taken) <;>
        exact goesOn_inDescription rfl rfl
    | _ =>
      obtain ⟨rfl, rfl⟩ := Prod.mk.inj (Except.ok.inj taken)
      exact goesOn_inDescription rfl rfl

theorem step_eq (r : Reader) (event : Event) (decodes : r.place.decodes = true) :
    r.step event = (Signal.ofEvent r.entities event).mapError .malformed >>=
      ({ r with entities := r.entitiesAfter event } : Reader).take := by
  obtain ⟨place, base, bare, entities, notices⟩ := r
  cases place with
  | markup | finished => cases decodes
  | _ =>
    simp only [step]
    cases Signal.ofEvent entities event <;> rfl

private theorem entitiesAfter_eq (r : Reader) (plain : event.isDoctype = false) :
    r.entitiesAfter event = r.entities := by
  cases event <;> first | rfl | cases plain

private theorem takeMarkup_goesOn {predicate : Iri} {written : Bytes} {depth : Nat}
    (placed : r.place = .markup e predicate written depth) :
    GoesOn event.depthAfter r (r.takeMarkup e predicate written depth event) := by
  obtain ⟨place, base, bare, entities, notices⟩ := r
  obtain rfl := placed
  cases event with
  | closed name => cases depth <;> exact goesOn_inDescription rfl rfl
  | _ => exact goesOn_inDescription rfl rfl

private theorem step_goesOn (begun : r.Begun) (stepped : r.step event = .ok (element, next)) :
    ∃ entities, (event.isDoctype = false → entities = r.entities) ∧
      GoesOn event.depthAfter { r with entities } next := by
  obtain ⟨place, base, bare, entities, notices⟩ := r
  cases place with
  | finished =>
    obtain ⟨rfl, rfl⟩ := Prod.mk.inj (Except.ok.inj stepped)
    exact ⟨entities, fun _ => rfl, rfl, rfl, rfl, begun, rfl⟩
  | markup e predicate written depth =>
    obtain ⟨rfl, rfl⟩ := Prod.mk.inj (Except.ok.inj stepped)
    exact ⟨entities, fun _ => rfl, takeMarkup_goesOn rfl⟩
  | _ =>
    rw [step_eq ⟨_, base, bare, entities, notices⟩ event rfl] at stepped
    obtain ⟨signal, decoded, taken⟩ := Attempt.bind_eq_ok.mp stepped
    refine ⟨_, entitiesAfter_eq _, ?_⟩
    rw [← Signal.depthAfter_ofEvent (Attempt.mapError_eq_ok.mp decoded)]
    exact take_goesOn ⟨begun.place, begun.root⟩ rfl taken

variable {last : Reader} {events : List Event} {elements : List Element}

/-- What holds for the whole document stays along a run, and only document types declare
entities. -/
theorem run_frame (begun : r.Begun) (ran : r.run events = .ok (elements, last)) :
    last.base = r.base ∧ last.bare = r.bare ∧ last.Begun ∧
      (Event.Plain events → last.entities = r.entities) := by
  induction events generalizing r elements with
  | nil =>
    obtain ⟨rfl, rfl⟩ := Prod.mk.inj (Except.ok.inj ran)
    exact ⟨rfl, rfl, begun, fun _ => rfl⟩
  | cons event rest ih =>
    obtain ⟨element, next, others, stepped, later, rfl⟩ := run_cons.mp ran
    obtain ⟨entities, plain, goesOn⟩ := step_goesOn begun stepped
    obtain ⟨base, bare, begun', same⟩ := ih goesOn.begun later
    refine ⟨base.trans goesOn.base, bare.trans goesOn.bare, begun', fun none => ?_⟩
    obtain ⟨first, others⟩ := List.forall_mem_cons.mp none
    rw [same others, goesOn.entities, plain first]

theorem run_depth (begun : r.Begun) {depth : Nat} (deep : r.depth? = some depth)
    (unended : Event.closes depth events = false) (ran : r.run events = .ok (elements, last)) :
    ∃ depth, last.depth? = some depth := by
  induction events generalizing r depth elements with
  | nil =>
    obtain ⟨rfl, rfl⟩ := Prod.mk.inj (Except.ok.inj ran)
    exact ⟨depth, deep⟩
  | cons event rest ih =>
    obtain ⟨element, next, others, stepped, later, rfl⟩ := run_cons.mp ran
    obtain ⟨entities, _, goesOn⟩ := step_goesOn begun stepped
    have deeper : next.depth? = event.depthAfter depth := by
      rw [goesOn.depth]
      exact congrArg (·.bind event.depthAfter) deep
    rw [Event.closes] at unended
    cases after : event.depthAfter depth with
    | none =>
      rw [after] at unended
      cases unended
    | some depth' =>
      rw [after] at unended
      exact ih goesOn.begun (deeper.trans after) unended later

theorem faultAtEnd_of_depth {depth : Nat} (deep : r.depth? = some depth)
    (fault : Option Markup.Fault) :
    r.faultAtEnd fault = some (fault.elim .unexpectedEnd .malformed) := by
  obtain ⟨place, base, bare, entities, notices⟩ := r
  cases place <;> cases deep <;> cases fault <;> rfl

/-! ## Up to the root -/

def declare (entities : Markup.Entities) : Event → Markup.Entities
  | .doctype content => entities.declare content
  | _ => entities

theorem entitiesAfter_declare (r : Reader) (event : Event) :
    r.entitiesAfter event = declare r.entities event := by
  cases event <;> rfl

theorem quiet_of_ofEvent {entities : Markup.Entities} {signal : Signal}
    (quiet : event.isQuiet = true) (decoded : Signal.ofEvent entities event = .ok signal) :
    (∃ s, signal = .text s) ∨ signal = .nothing := by
  cases event with
  | opened | whole | closed => cases quiet
  | text content =>
    obtain ⟨s, _, rfl⟩ := Attempt.map_eq_ok.mp decoded
    exact .inl ⟨s, rfl⟩
  | characterData content => exact .inl ⟨_, (Except.ok.inj decoded).symm⟩
  | _ => exact .inr (Except.ok.inj decoded).symm

/-- Before the root, between descriptions and between properties, nothing but declarations of
entities is kept of what stands between elements. -/
theorem step_between
    (placed : r.place = .prolog ∨ r.place = .root ∨ ∃ e, r.place = .description e)
    (quiet : event.isQuiet = true) (stepped : r.step event = .ok (element, next)) :
    element = none ∧ next = { r with entities := declare r.entities event } := by
  obtain ⟨place, base, bare, entities, notices⟩ := r
  rcases placed with rfl | rfl | ⟨e, rfl⟩
  all_goals
    rw [step_eq ⟨_, base, bare, entities, notices⟩ event rfl] at stepped
    obtain ⟨signal, decoded, taken⟩ := Attempt.bind_eq_ok.mp stepped
    rw [entitiesAfter_declare] at taken
    rcases quiet_of_ofEvent quiet (Attempt.mapError_eq_ok.mp decoded) with ⟨s, rfl⟩ | rfl <;>
    · obtain ⟨rfl, rfl⟩ := Prod.mk.inj (Except.ok.inj taken)
      exact ⟨rfl, rfl⟩

theorem run_prolog (placed : r.place = .prolog) (quiet : ∀ event ∈ events, event.isQuiet = true)
    (ran : r.run events = .ok (elements, last)) :
    elements = [] ∧ last = { r with entities := events.foldl declare r.entities } := by
  induction events generalizing r elements with
  | nil =>
    obtain ⟨rfl, rfl⟩ := Prod.mk.inj (Except.ok.inj ran)
    exact ⟨rfl, rfl⟩
  | cons event rest ih =>
    obtain ⟨element, next, others, stepped, later, rfl⟩ := run_cons.mp ran
    obtain ⟨first, quietRest⟩ := List.forall_mem_cons.mp quiet
    obtain ⟨rfl, rfl⟩ := step_between (.inl placed) first stepped
    obtain ⟨rfl, rfl⟩ := ih (r := { r with entities := declare r.entities event }) placed quietRest
      later
    exact ⟨rfl, rfl⟩

/-- What a start tag means; `whole` where the tag is also its end. -/
def startSignal (opened : OpenTag) (whole : Bool) : Signal :=
  if whole then .whole opened else .opened opened

theorem step_ofStart {tag : Markup.Tag} (whole : Bool) (decodes : r.place.decodes = true)
    (stepped : r.step (.ofStart tag whole) = .ok (element, next)) :
    ∃ opened, OpenTag.ofTag r.entities tag = .ok opened ∧
      r.take (startSignal opened whole) = .ok (element, next) := by
  rw [step_eq r _ decodes] at stepped
  obtain ⟨signal, decoded, taken⟩ := Attempt.bind_eq_ok.mp stepped
  cases whole <;>
  · obtain ⟨opened, resolved, rfl⟩ := Attempt.map_eq_ok.mp (Attempt.mapError_eq_ok.mp decoded)
    exact ⟨opened, resolved, taken⟩

theorem step_prolog {tag : Markup.Tag} (whole : Bool) (placed : r.place = .prolog)
    (stepped : r.step (.ofStart tag whole) = .ok (element, next)) :
    ∃ opened, OpenTag.ofTag r.entities tag = .ok opened ∧
      (opened.name = rootName ∧ element = none ∧
          next = { r with
            base := opened.attribute? "xml:base"
            place := if whole then .finished else .root } ∨
        opened.name ≠ rootName ∧
          beginDescription { r with bare := true } opened whole = .ok (element, next)) := by
  obtain ⟨place, base, bare, entities, notices⟩ := r
  obtain rfl := placed
  obtain ⟨opened, resolved, taken⟩ := step_ofStart whole rfl stepped
  have begun : beginRoot ⟨.prolog, base, bare, entities, notices⟩ opened whole =
      .ok (element, next) := by
    cases whole <;> exact taken
  refine ⟨opened, resolved, ?_⟩
  unfold beginRoot at begun
  split at begun
  · next named =>
    obtain ⟨rfl, rfl⟩ := Prod.mk.inj (Except.ok.inj begun)
    exact .inl ⟨named, rfl, rfl⟩
  · next other => exact .inr ⟨other, begun⟩

theorem begun_of_step_prolog {tag : Markup.Tag} (placed : r.place = .prolog) (bare : r.bare = false)
    (stepped : r.step (.opened tag) = .ok (element, next)) :
    element = none ∧ next.Begun ∧ next.depth? = some 0 := by
  obtain ⟨opened, _, ⟨_, rfl, rfl⟩ | ⟨_, begun⟩⟩ := step_prolog false placed stepped
  · exact ⟨rfl, ⟨nofun, fun _ => bare⟩, rfl⟩
  · obtain ⟨e, _, same⟩ := Attempt.map_eq_ok.mp begun
    obtain ⟨rfl, rfl⟩ := Prod.mk.inj same
    exact ⟨rfl, ⟨nofun, nofun⟩, rfl⟩

/-! ## Notices -/

/-- A reader says no more than before, or that a property of a description is left out. -/
def Notes (r next : Reader) : Prop :=
  next.notices = r.notices ∨
    ∃ e predicate, next.notices = Distinct.add r.notices (notice e predicate)

private theorem endProperty_notes {p : OpenProperty} {text : List Char} {nested : Bool}
    (ended : r.endProperty e p text nested = .ok next) : r.Notes next := by
  rcases endProperty_cases ended with ⟨_, rfl⟩ | ⟨_, _, _, rfl⟩
  · exact .inr ⟨e, p.predicate, rfl⟩
  · exact .inl rfl

private theorem beginProperty_notes (begun : r.beginProperty e tag whole = .ok next) :
    r.Notes next := by
  rw [beginProperty_eq] at begun
  obtain ⟨predicate, _, begun⟩ := Attempt.bind_eq_ok.mp begun
  unfold propertyBegun at begun
  split at begun
  · obtain ⟨iri, _, rfl⟩ := Attempt.map_eq_ok.mp begun
    exact .inl rfl
  · obtain rfl := Except.ok.inj begun
    exact .inl rfl
  · cases whole <;> obtain rfl := Except.ok.inj begun <;> exact .inl rfl
  · cases whole with
    | true => exact endProperty_notes begun
    | false =>
      obtain rfl := Except.ok.inj begun
      exact .inl rfl

private theorem beginRoot_notices (begun : r.beginRoot tag whole = .ok (element, next)) :
    next.notices = r.notices := by
  unfold beginRoot at begun
  split at begun
  · obtain ⟨_, rfl⟩ := Prod.mk.inj (Except.ok.inj begun)
    rfl
  · obtain ⟨e, rfl⟩ := beginDescription_frame begun
    rfl

private theorem take_notes {signal : Signal} (taken : r.take signal = .ok (element, next)) :
    r.Notes next := by
  unfold take at taken
  split at taken
  · exact .inl (beginRoot_notices taken)
  · exact .inl (beginRoot_notices taken)
  · obtain ⟨e, rfl⟩ := beginDescription_frame taken
    exact .inl rfl
  · obtain ⟨e, rfl⟩ := beginDescription_frame taken
    exact .inl rfl
  case h_6 | h_7 =>
    obtain ⟨_, begins, same⟩ := Attempt.map_eq_ok.mp taken
    obtain ⟨_, rfl⟩ := Prod.mk.inj same
    exact beginProperty_notes begins
  case h_12 =>
    obtain ⟨_, ended, same⟩ := Attempt.map_eq_ok.mp taken
    obtain ⟨_, rfl⟩ := Prod.mk.inj same
    exact endProperty_notes ended
  all_goals
    obtain ⟨_, rfl⟩ := Prod.mk.inj (Except.ok.inj taken)
    exact .inl rfl

private theorem step_notes (stepped : r.step event = .ok (element, next)) : r.Notes next := by
  unfold step at stepped
  split at stepped
  · obtain ⟨_, rfl⟩ := Prod.mk.inj (Except.ok.inj stepped)
    exact .inl rfl
  · obtain ⟨_, rfl⟩ := Prod.mk.inj (Except.ok.inj stepped)
    refine .inl ?_
    unfold takeMarkup
    split <;> rfl
  · split at stepped
    · cases stepped
    · have noted : Notes { r with entities := r.entitiesAfter event } next := take_notes stepped
      exact noted

private theorem mem_notices_of_run {m : String} (ran : r.run events = .ok (elements, last))
    (said : m ∈ last.notices) : m ∈ r.notices ∨ ∃ e predicate, m = notice e predicate := by
  induction events generalizing r elements with
  | nil =>
    obtain ⟨_, rfl⟩ := Prod.mk.inj (Except.ok.inj ran)
    exact .inl said
  | cons event rest ih =>
    obtain ⟨element, next, others, stepped, later, rfl⟩ := run_cons.mp ran
    rcases ih later with before | ofProperty
    · rcases step_notes stepped with same | ⟨e, predicate, noted⟩
      · exact .inl (same ▸ before)
      · rw [noted, Distinct.mem_add] at before
        exact before.imp_right fun same => ⟨e, predicate, same⟩
    · exact .inr ofProperty

end Reader

theorem Reading.mem_notices {bytes : Bytes} {m : String} (read : (ofBytes bytes).fault = none)
    (said : m ∈ (ofBytes bytes).notices) : ∃ e predicate, m = Reader.notice e predicate := by
  obtain ⟨last, ran, notices, _⟩ := exists_run read
  rw [← ofBytes] at notices
  rw [notices] at said
  rcases Reader.mem_notices_of_run ran said with before | ofProperty
  · cases before
  · exact ofProperty

end ContentImport.Ontology
