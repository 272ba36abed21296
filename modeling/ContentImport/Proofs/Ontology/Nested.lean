import ContentImport.Proofs.Ontology.Run

/-!
Markup within a property. The reader comes through it where it was, whatever elements nest in it and
however deep: of markup that is no value nothing is kept but that it was there, and of markup that is
a value its text is kept.
-/

set_option autoImplicit false
set_option relaxedAutoImplicit false

namespace ContentImport.Ontology

open ContentImport.Markup (Branch Bytes Entities Event Node)

def written (content : List Node) : Bytes :=
  (Node.eventsOf content).flatMap Event.written

/-- Places within markup, by what is written of it and how deep it is: an event changes no more than
these two. -/
def Place.Passes (place : Bytes → Nat → Place) : Prop :=
  ∀ ⦃r next : Reader⦄ ⦃event : Event⦄ ⦃element : Option Element⦄ ⦃before : Bytes⦄
    ⦃depth depth' : Nat⦄, r.place = place before depth → event.depthAfter depth = some depth' →
      r.step event = .ok (element, next) →
        element = none ∧
          ∃ entities, next = { r with place := place (before ++ event.written) depth', entities }

namespace Place

private theorem passes_of_take {place : Nat → Place}
    (decodes : ∀ depth, (place depth).decodes = true)
    (takes : ∀ base bare entities notices (signal : Signal) depth depth',
      signal.depthAfter depth = some depth' →
        (⟨place depth, base, bare, entities, notices⟩ : Reader).take signal =
          .ok (none, ⟨place depth', base, bare, entities, notices⟩)) :
    Passes fun _ => place := by
  rintro ⟨_, base, bare, entities, notices⟩ next event element before depth depth' rfl deeper stepped
  rw [Reader.step_eq _ event (decodes depth)] at stepped
  obtain ⟨signal, decoded, taken⟩ := Attempt.bind_eq_ok.mp stepped
  rw [← Signal.depthAfter_ofEvent (Attempt.mapError_eq_ok.mp decoded)] at deeper
  rw [takes _ _ _ _ signal depth depth' deeper] at taken
  obtain ⟨rfl, rfl⟩ := Prod.mk.inj (Except.ok.inj taken)
  exact ⟨rfl, _, rfl⟩

theorem passes_passed (e : Element) : Passes fun _ => passed e := by
  refine passes_of_take (fun _ => rfl) fun _ _ _ _ signal depth depth' deeper => ?_
  cases signal with
  | closed => cases depth <;> cases deeper; rfl
  | _ => cases deeper; rfl

private theorem passes_nested (e : Element) (p : OpenProperty) (text : List Char) :
    Passes fun _ => nested e p text := by
  refine passes_of_take (fun _ => rfl) fun _ _ _ _ signal depth depth' deeper => ?_
  cases signal with
  | closed => cases depth <;> cases deeper; rfl
  | _ => cases deeper; rfl

theorem passes_markup (e : Element) (predicate : Iri) : Passes (markup e predicate) := by
  rintro ⟨place, base, bare, entities, notices⟩ next event element before depth depth' rfl deeper
    stepped
  obtain ⟨rfl, rfl⟩ := Prod.mk.inj (Except.ok.inj stepped)
  refine ⟨rfl, entities, ?_⟩
  cases event with
  | closed => cases depth <;> cases deeper; rfl
  | _ => cases deeper; rfl

end Place

namespace Reader

variable {r last : Reader} {e : Element} {elements : List Element}

theorem run_passes {place : Bytes → Nat → Place} (passes : Place.Passes place) (content : List Node)
    (before : Bytes) {depth : Nat} (placed : r.place = place before depth)
    (ran : r.run (Node.eventsOf content) = .ok (elements, last)) :
    elements = [] ∧
      ∃ entities, last = { r with place := place (before ++ written content) depth, entities } := by
  -- Elements are passed one deeper, and end where they began.
  induction content using Node.content_induction generalizing r last before depth elements with
  | nil =>
    obtain ⟨rfl, rfl⟩ := Prod.mk.inj (Except.ok.inj ran)
    refine ⟨rfl, r.entities, ?_⟩
    rw [written, Node.eventsOf, List.flatMap_nil, List.append_nil, ← placed]
  | element tag content name rest ihContent ihRest =>
    obtain ⟨_, behind, _, ranElement, ranRest, rfl⟩ := run_append.mp ran
    obtain ⟨_, within, _, opening, ranInner, rfl⟩ := run_cons.mp ranElement
    obtain ⟨_, inner, _, ranContent, ranEnd, rfl⟩ := run_append.mp ranInner
    obtain ⟨_, closing, rfl⟩ := run_singleton.mp ranEnd
    obtain ⟨rfl, _, rfl⟩ := passes placed rfl opening
    obtain ⟨rfl, _, rfl⟩ := ihContent _ rfl ranContent
    obtain ⟨rfl, _, rfl⟩ := passes rfl rfl closing
    obtain ⟨rfl, entities, rfl⟩ := ihRest _ rfl ranRest
    refine ⟨rfl, entities, ?_⟩
    simp [written, Node.eventsOf, Node.events]
  | whole tag rest ih =>
    obtain ⟨_, next, _, stepped, ran, rfl⟩ := run_cons.mp ran
    obtain ⟨rfl, _, rfl⟩ := passes placed rfl stepped
    obtain ⟨rfl, entities, rfl⟩ := ih _ rfl ran
    refine ⟨rfl, entities, ?_⟩
    simp [written, Node.eventsOf, Node.events]
  | quiet event isQuiet rest ih =>
    obtain ⟨_, next, _, stepped, ran, rfl⟩ := run_cons.mp ran
    obtain ⟨rfl, _, rfl⟩ := passes placed (Event.depthAfter_quiet isQuiet depth) stepped
    obtain ⟨rfl, entities, rfl⟩ := ih _ rfl ran
    refine ⟨rfl, entities, ?_⟩
    simp [written, Node.eventsOf, Node.events]

end Reader

/-! ## The text of a property -/

def Signal.textOf : Signal → List Char
  | .text s => s
  | _ => []

/-- The text that stands directly in some content; what stands in its elements is left aside. -/
def directText (entities : Entities) : List Node → Except Markup.Fault (List Char)
  | [] => .ok []
  | .quiet event _ :: rest => do
    let signal ← Signal.ofEvent entities event
    let more ← directText entities rest
    pure (signal.textOf ++ more)
  | _ :: rest => directText entities rest

namespace Reader

variable {r next last : Reader} {e : Element} {p : OpenProperty} {elements : List Element}
  {text : List Char} {nested : Bool}

private theorem step_property {event : Event} {element : Option Element}
    (placed : r.place = .property e p text nested) (quiet : event.isQuiet = true)
    (stepped : r.step event = .ok (element, next)) :
    element = none ∧ ∃ signal, Signal.ofEvent r.entities event = .ok signal ∧
      next = { r with
        place := .property e p (text ++ signal.textOf) nested
        entities := declare r.entities event } := by
  obtain ⟨place, base, bare, entities, notices⟩ := r
  obtain rfl := placed
  rw [step_eq ⟨_, base, bare, entities, notices⟩ event rfl] at stepped
  obtain ⟨signal, decoded, taken⟩ := Attempt.bind_eq_ok.mp stepped
  rw [entitiesAfter_declare] at taken
  have decoded := Attempt.mapError_eq_ok.mp decoded
  rcases quiet_of_ofEvent quiet decoded with ⟨s, rfl⟩ | rfl
  · obtain ⟨rfl, rfl⟩ := Prod.mk.inj (Except.ok.inj taken)
    exact ⟨rfl, _, decoded, rfl⟩
  · obtain ⟨rfl, rfl⟩ := Prod.mk.inj (Except.ok.inj taken)
    refine ⟨rfl, _, decoded, ?_⟩
    simp only [Signal.textOf, List.append_nil]

private theorem run_branch_property {b : Branch} (placed : r.place = .property e p text nested)
    (ran : r.run b.events = .ok (elements, last)) :
    elements = [] ∧
      ∃ entities, last = { r with place := .property e p text true, entities } := by
  have decodes : r.place.decodes = true := by
    rw [placed]
    rfl
  obtain ⟨place, base, bare, entities, notices⟩ := r
  obtain rfl := placed
  obtain ⟨_, within, _, stepped, ranInner, rfl⟩ := run_cons.mp ran
  obtain ⟨_, _, taken⟩ := step_ofStart b.ending.isNone decodes stepped
  obtain ⟨tag, content, ending, isWhole⟩ := b
  cases ending with
  | none =>
    obtain ⟨rfl, rfl⟩ := Prod.mk.inj (Except.ok.inj taken)
    obtain ⟨rfl, rfl⟩ := Prod.mk.inj (Except.ok.inj ranInner)
    exact ⟨rfl, _, rfl⟩
  | some name =>
    obtain ⟨rfl, rfl⟩ := Prod.mk.inj (Except.ok.inj taken)
    obtain ⟨_, inside, _, ranContent, ranEnd, rfl⟩ := run_append.mp ranInner
    obtain ⟨_, closing, rfl⟩ := run_singleton.mp ranEnd
    obtain ⟨rfl, entities, rfl⟩ :=
      run_passes (Place.passes_nested e p text) content [] rfl ranContent
    obtain ⟨rfl, rfl⟩ := Prod.mk.inj (Except.ok.inj closing)
    exact ⟨rfl, entities, rfl⟩

theorem run_property (content : List Node) (placed : r.place = .property e p text nested)
    (ran : r.run (Node.eventsOf content) = .ok (elements, last)) :
    elements = [] ∧ ∃ more entities,
      last = { r with
        place := .property e p (text ++ more) (nested || !(Branch.children content).isEmpty)
        entities } ∧
      (Event.Plain (Node.eventsOf content) → directText r.entities content = .ok more) := by
  induction content generalizing r text nested elements with
  | nil =>
    obtain ⟨rfl, rfl⟩ := Prod.mk.inj (Except.ok.inj ran)
    refine ⟨rfl, [], r.entities, ?_, fun _ => rfl⟩
    simp [Branch.children, ← placed]
  | cons node rest ih =>
    obtain ⟨_, next, _, ranNode, ranRest, rfl⟩ := run_append.mp ran
    have begun := (inDescription (r := r) (by rw [placed]; rfl)).1
    have unchanged := (run_frame begun ranNode).2.2.2
    cases child : Branch.ofNode? node with
    | some b =>
      rw [Branch.events_of_ofNode? child] at ranNode
      obtain ⟨rfl, entities, rfl⟩ := run_branch_property placed ranNode
      obtain ⟨rfl, more, last, rfl, known⟩ := ih rfl ranRest
      refine ⟨rfl, more, last, ?_, fun plain => ?_⟩
      · simp [Branch.children_cons_some child]
      · obtain ⟨plainNode, plainRest⟩ := Node.plain_eventsOf_cons.mp plain
        obtain rfl := unchanged plainNode
        cases node with
        | quiet => cases child
        | _ => exact known plainRest
    | none =>
      cases node with
      | whole | element => cases child
      | quiet event isQuiet =>
        obtain ⟨_, stepped, rfl⟩ := run_singleton.mp ranNode
        obtain ⟨rfl, signal, decoded, rfl⟩ := step_property placed isQuiet stepped
        obtain ⟨rfl, more, last, rfl, known⟩ := ih rfl ranRest
        refine ⟨rfl, signal.textOf ++ more, last, ?_, fun plain => ?_⟩
        · rw [Branch.children_cons_none child, List.append_assoc]
        · obtain ⟨plainNode, plainRest⟩ := Node.plain_eventsOf_cons.mp plain
          have text := known plainRest
          rw [unchanged plainNode] at text
          rw [directText, decoded, text]
          rfl

end Reader

end ContentImport.Ontology
