import ContentImport.Proofs.Ontology.Account

/-!
Descriptions as they stand in a document. A description is about a resource, its start tag declares
and states something, and its properties are accounted for. A reader gives one element for each
description, which is what the description says, and it keeps the notices about what is left out.
-/

set_option autoImplicit false
set_option relaxedAutoImplicit false

namespace ContentImport.Ontology

open ContentImport.Markup (Branch Entities Event Node Tree)

def OpenTag.declarations (tag : OpenTag) : Except ReadFault (List Iri) :=
  if tag.name = rdf ++ "Description" then .ok [] else (Reader.nameIri tag.name).map ([·])

/-- What an attribute states that states something. -/
def attributeStatement (base : Option String) (given : String × String) :
    Except ReadFault Statement := do
  let predicate ← Reader.nameIri given.1
  if given.1 = rdfType.text then
    let object ← Reference.resolve base given.2
    pure ⟨predicate, .resource object⟩
  else pure ⟨predicate, .literal (.plain given.2)⟩

def OpenTag.attributeStatements (base : Option String) (tag : OpenTag) :
    Except ReadFault (List Statement) :=
  (tag.attributes.filter (Reader.isStatement ·.1)).mapM (attributeStatement base)

/-- A description in a document. -/
structure Description where
  /-- The resource that it is about, or none for a blank node. -/
  about : Option Iri
  declared : List Iri
  /-- What its attributes state. -/
  given : List Statement
  /-- What becomes of its properties. -/
  accounts : List Account

namespace Description

def element (d : Description) : Element :=
  ⟨d.about, d.declared, d.given ++ d.accounts.flatMap Account.statements⟩

def notices (d : Description) : List String :=
  d.accounts.flatMap (Account.notices d.about)

/-- What the start tag of a description says about it. -/
structure Begins (base : Option String) (tag : OpenTag) (d : Description) : Prop where
  about : Reader.subject base tag = .ok d.about
  declared : tag.declarations = .ok d.declared
  given : tag.attributeStatements base = .ok d.given

/-- The description by an element in a document in which entities are declared. -/
def ofBranch (base : Option String) (entities : Entities) (b : Branch) :
    Except ReadFault Description := do
  let tag ← (OpenTag.ofTag entities b.tag).mapError .malformed
  let about ← Reader.subject base tag
  let declared ← tag.declarations
  let given ← tag.attributeStatements base
  let accounts ← (Branch.children b.content).mapM (Account.ofBranch base entities)
  pure ⟨about, declared, given, accounts⟩

/-- A description that takes the texts of its properties to be any. -/
def Of (base : Option String) (b : Branch) (d : Description) : Prop :=
  ∃ entities tag, OpenTag.ofTag entities b.tag = .ok tag ∧ Begins base tag d ∧
    List.Forall₂ (fun b a => Account.Of base b a) (Branch.children b.content) d.accounts

theorem ofBranch_eq_ok {base : Option String} {entities : Entities} {b : Branch} {d : Description} :
    ofBranch base entities b = .ok d ↔ ∃ tag, OpenTag.ofTag entities b.tag = .ok tag ∧
      Begins base tag d ∧
        (Branch.children b.content).mapM (Account.ofBranch base entities) = .ok d.accounts := by
  obtain ⟨about, declared, given, accounts⟩ := d
  unfold ofBranch
  simp only [Attempt.bind_eq_ok, Attempt.mapError_eq_ok, pure, Except.pure, Except.ok.injEq,
    mk.injEq]
  constructor
  · rintro ⟨tag, decoded, _, named, _, declares, _, given, _, accounted, rfl, rfl, rfl, rfl⟩
    exact ⟨tag, decoded, ⟨named, declares, given⟩, accounted⟩
  · rintro ⟨tag, decoded, ⟨named, declares, given⟩, accounted⟩
    exact ⟨tag, decoded, _, named, _, declares, _, given, _, accounted, rfl, rfl, rfl, rfl⟩

end Description

namespace Reader

variable {e e' : Element} {base : Option String} {tag : OpenTag}

private theorem pushAttribute_eq (base : Option String) (e : Element) (given : String × String) :
    pushAttribute base e given =
      if isStatement given.1 then
        (attributeStatement base given).map fun s => { e with statements := e.statements ++ [s] }
      else .ok e := by
  obtain ⟨key, value⟩ := given
  unfold pushAttribute attributeStatement
  by_cases states : isStatement key = true
  · simp only [states, if_true]
    cases nameIri key with
    | error _ => rfl
    | ok predicate =>
      by_cases type : key = rdfType.text
      · simp only [type, if_true]
        cases Reference.resolve base value <;> rfl
      · simp only [type, if_false]
        rfl
  · simp only [states]
    rfl

private theorem foldlM_pushAttribute {attributes : List (String × String)} :
    attributes.foldlM (pushAttribute base) e = .ok e' ↔
      ∃ given, (attributes.filter (isStatement ·.1)).mapM (attributeStatement base) = .ok given ∧
        { e with statements := e.statements ++ given } = e' := by
  induction attributes generalizing e with
  | nil => simp [pure, Except.pure]
  | cons first rest ih =>
    rw [List.foldlM_cons, Attempt.bind_eq_ok, pushAttribute_eq]
    by_cases states : isStatement first.1 = true
    · simp [states, Attempt.map_eq_ok, Attempt.bind_eq_ok, ih, pure, Except.pure]
    · simp [states, ih]

private theorem beginElement_eq (base : Option String) (tag : OpenTag) :
    beginElement base tag = subject base tag >>= fun about =>
      tag.declarations >>= fun declared =>
        tag.attributes.foldlM (pushAttribute base) ⟨about, declared, []⟩ := by
  unfold beginElement OpenTag.declarations
  refine congrArg (Bind.bind (subject base tag)) (funext fun about => ?_)
  by_cases description : tag.name = rdf ++ "Description"
  · simp only [description, if_true]
    rfl
  · simp only [description, if_false]
    cases nameIri tag.name <;> rfl

private theorem begins_of_beginElement (begun : beginElement base tag = .ok e)
    (accounts : List Account) :
    Description.Begins base tag ⟨e.iri, e.declared, e.statements, accounts⟩ := by
  rw [beginElement_eq] at begun
  obtain ⟨about, named, begun⟩ := Attempt.bind_eq_ok.mp begun
  obtain ⟨declared, declares, pushed⟩ := Attempt.bind_eq_ok.mp begun
  obtain ⟨given, stated, rfl⟩ := foldlM_pushAttribute.mp pushed
  exact ⟨named, declares, stated⟩

variable {r next last : Reader} {element : Option Element} {elements others : List Element}
  {b : Branch}

def afterDescriptions (r : Reader) (descriptions : List Description) (entities : Entities) :
    Reader :=
  { r with
    place := r.afterDescription
    notices := Distinct.addAll r.notices (descriptions.flatMap Description.notices)
    entities }

private theorem run_description
    (begun : r.beginDescription tag b.ending.isNone = .ok (element, next))
    (ran : next.run b.inner = .ok (others, last)) :
    ∃ d entities, element.toList ++ others = [d.element] ∧
      last = r.afterDescriptions [d] entities ∧ d.Begins r.base tag ∧
      List.Forall₂ (fun b a => a.Of r.base b) (Branch.children b.content) d.accounts ∧
      (Event.Plain b.inner →
        (Branch.children b.content).mapM (Account.ofBranch r.base r.entities) =
          .ok d.accounts) := by
  obtain ⟨e, made, same⟩ := Attempt.map_eq_ok.mp begun
  obtain ⟨_, content, ending, isWhole⟩ := b
  cases ending with
  | none =>
    obtain rfl := isWhole rfl
    obtain ⟨rfl, rfl⟩ := Prod.mk.inj same
    obtain ⟨rfl, rfl⟩ := Prod.mk.inj (Except.ok.inj ran)
    refine ⟨_, r.entities, ?_, ?_, begins_of_beginElement made [], .nil, fun _ => rfl⟩
    · simp [Description.element]
    · simp [afterDescriptions, Description.notices, Distinct.addAll]
  | some name =>
    obtain ⟨rfl, rfl⟩ := Prod.mk.inj same
    obtain ⟨_, inside, _, ranContent, ranEnd, rfl⟩ := run_append.mp ran
    obtain ⟨_, closing, rfl⟩ := run_singleton.mp ranEnd
    obtain ⟨rfl, accounts, entities, rfl, accounted, exactly⟩ :=
      run_properties content rfl ranContent
    obtain ⟨rfl, rfl⟩ := Prod.mk.inj (Except.ok.inj closing)
    refine ⟨_, entities, rfl, ?_, begins_of_beginElement made accounts, accounted, fun plain => ?_⟩
    · rw [afterDescriptions, List.flatMap_cons, List.flatMap_nil, List.append_nil]
      rfl
    · exact exactly fun event member => plain event (List.mem_append_left _ member)

private theorem afterDescriptions_nil (placed : r.place = .root) (within : r.bare = false) :
    r.afterDescriptions [] r.entities = r := by
  obtain ⟨place, base, bare, entities, notices⟩ := r
  obtain rfl := placed
  obtain rfl := within
  rfl

private theorem afterDescriptions_append (first others : List Description)
    (entities later : Entities) :
    (r.afterDescriptions first entities).afterDescriptions others later =
      r.afterDescriptions (first ++ others) later := by
  simp only [afterDescriptions, Distinct.addAll, List.flatMap_append, List.foldl_append]
  rfl

private theorem run_branch_root (placed : r.place = .root)
    (ran : r.run b.events = .ok (elements, last)) :
    ∃ d entities, elements = [d.element] ∧ last = r.afterDescriptions [d] entities ∧
      d.Of r.base b ∧
        (Event.Plain b.events → Description.ofBranch r.base r.entities b = .ok d) := by
  have decodes : r.place.decodes = true := by
    rw [placed]
    rfl
  obtain ⟨element, next, _, stepped, ranInner, rfl⟩ := run_cons.mp ran
  obtain ⟨tag, decoded, taken⟩ := step_ofStart b.ending.isNone decodes stepped
  have begun : r.beginDescription tag b.ending.isNone = .ok (element, next) := by
    obtain ⟨place, base, bare, entities, notices⟩ := r
    obtain rfl := placed
    rw [← taken]
    cases b.ending <;> rfl
  obtain ⟨d, entities, given, rfl, begins, accounted, exactly⟩ := run_description begun ranInner
  refine ⟨d, entities, given, rfl, ⟨_, tag, decoded, begins, accounted⟩, fun plain => ?_⟩
  refine Description.ofBranch_eq_ok.mpr ⟨tag, decoded, begins, exactly fun event member => ?_⟩
  exact plain event (List.mem_cons_of_mem _ member)

private theorem run_descriptions (content : List Node) (placed : r.place = .root)
    (within : r.bare = false)
    (ran : r.run (Node.eventsOf content) = .ok (elements, last)) :
    ∃ descriptions entities, elements = descriptions.map Description.element ∧
      last = r.afterDescriptions descriptions entities ∧
      List.Forall₂ (fun b d => d.Of r.base b) (Branch.children content) descriptions ∧
      (Event.Plain (Node.eventsOf content) →
        (Branch.children content).mapM (Description.ofBranch r.base r.entities) =
          .ok descriptions) := by
  induction content generalizing r elements with
  | nil =>
    obtain ⟨rfl, rfl⟩ := Prod.mk.inj (Except.ok.inj ran)
    exact ⟨[], r.entities, rfl, (afterDescriptions_nil placed within).symm, .nil, fun _ => rfl⟩
  | cons node rest ih =>
    obtain ⟨_, next, _, ranNode, ranRest, rfl⟩ := run_append.mp ran
    have begun : r.Begun := ⟨by simp [placed], fun _ => within⟩
    have unchanged := (run_frame begun ranNode).2.2.2
    cases child : Branch.ofNode? node with
    | some b =>
      rw [Branch.events_of_ofNode? child] at ranNode
      obtain ⟨d, entities, rfl, rfl, described, exactly⟩ := run_branch_root placed ranNode
      have stays : (r.afterDescriptions [d] entities).place = .root := if_neg (by simp [within])
      obtain ⟨ds, later, rfl, rfl, others, exactlyOthers⟩ := ih stays within ranRest
      have both := afterDescriptions_append (r := r) [d] ds entities later
      refine ⟨d :: ds, later, rfl, both, ?_, fun plain => ?_⟩
      · rw [Branch.children_cons_some child]
        exact .cons described others
      · obtain ⟨plainNode, plainRest⟩ := Node.plain_eventsOf_cons.mp plain
        obtain rfl := unchanged plainNode
        rw [Branch.events_of_ofNode? child] at plainNode
        rw [Branch.children_cons_some child]
        exact Attempt.mapM_cons_ok (exactly plainNode) (exactlyOthers plainRest)
    | none =>
      cases node with
      | whole | element => cases child
      | quiet event isQuiet =>
        obtain ⟨_, stepped, rfl⟩ := run_singleton.mp ranNode
        obtain ⟨rfl, rfl⟩ := step_between (.inr (.inl placed)) isQuiet stepped
        obtain ⟨ds, later, rfl, rfl, others, exactly⟩ :=
          ih (r := { r with entities := declare r.entities event }) placed within ranRest
        refine ⟨ds, later, rfl, rfl, others, fun plain => ?_⟩
        obtain ⟨plainNode, plainRest⟩ := Node.plain_eventsOf_cons.mp plain
        have made := exactly plainRest
        rw [unchanged plainNode] at made
        exact made

end Reader

/-! ## Documents -/

/-- Whether the element that a tag begins holds descriptions, and is not one itself. -/
def holdsDescriptions (tag : Markup.Tag) : Prop :=
  String.ofList (tag.scope.qualify true tag.name) = Reader.rootName

instance (tag : Markup.Tag) : Decidable (holdsDescriptions tag) :=
  inferInstanceAs (Decidable (_ = _))

/-- The elements of a document that are descriptions, in document order. -/
def descriptionsIn (tree : Tree) : List Branch :=
  if holdsDescriptions tree.root.tag then Branch.children tree.root.content else [tree.root]

/-- What the references in a document are relative to. -/
def OpenTag.base? (root : OpenTag) : Option String :=
  if root.name = Reader.rootName then root.attribute? "xml:base" else none

/-- The entities that are declared before the root. -/
def entitiesOf (tree : Tree) : Entities :=
  tree.prolog.foldl Reader.declare []

private theorem OpenTag.name_eq_rootName {entities : Entities} {tag : Markup.Tag} {opened : OpenTag}
    (decoded : ofTag entities tag = .ok opened) :
    opened.name = Reader.rootName ↔ holdsDescriptions tag := by
  obtain ⟨_, _, decoded⟩ := Attempt.bind_eq_ok.mp decoded
  obtain ⟨_, _, made⟩ := Attempt.bind_eq_ok.mp decoded
  obtain rfl := Except.ok.inj made
  rfl

namespace Reader

variable {last : Reader} {tree : Tree} {elements : List Element}

/-- The reader behind the start tag of a root that holds descriptions. -/
def inRoot (tree : Tree) (root : OpenTag) : Reader :=
  ⟨.root, root.base?, false, entitiesOf tree, []⟩

private theorem run_front {rest : List Event}
    (ran : start.run (tree.prolog ++ .ofStart tree.root.tag tree.root.ending.isNone :: rest) =
      .ok (elements, last)) :
    ∃ element next others root, OpenTag.ofTag (entitiesOf tree) tree.root.tag = .ok root ∧
      next.run rest = .ok (others, last) ∧ element.toList ++ others = elements ∧
      (root.name = rootName ∧ element = none ∧
          next = { inRoot tree root with
            place := if tree.root.ending.isNone then .finished else .root } ∨
        root.name ≠ rootName ∧
          beginDescription { inRoot tree root with place := .prolog, bare := true } root
            tree.root.ending.isNone = .ok (element, next)) := by
  obtain ⟨_, middle, _, prolog, ranRoot, rfl⟩ := run_append.mp ran
  obtain ⟨rfl, rfl⟩ := run_prolog rfl tree.isQuiet prolog
  obtain ⟨element, next, others, stepped, ranRest, rfl⟩ := run_cons.mp ranRoot
  obtain ⟨root, decoded, begun⟩ := step_prolog _ rfl stepped
  refine ⟨element, next, others, root, decoded, ranRest, rfl, ?_⟩
  rcases begun with ⟨named, rfl, rfl⟩ | ⟨other, begun⟩
  · exact .inl ⟨named, rfl, by rw [inRoot, OpenTag.base?, if_pos named]; rfl⟩
  · refine .inr ⟨other, ?_⟩
    rw [inRoot, OpenTag.base?, if_neg other]
    exact begun

theorem run_within_root {name : Markup.Bytes} {front : List Event} {root : OpenTag}
    (ended : tree.root.ending = some name) (holds : holdsDescriptions tree.root.tag)
    (decoded : OpenTag.ofTag (entitiesOf tree) tree.root.tag = .ok root) (plain : Event.Plain front)
    (reached : start.run (tree.prolog ++ .opened tree.root.tag :: front) = .ok (elements, last)) :
    last.base = root.base? ∧ last.entities = entitiesOf tree ∧ last.Begun := by
  have opened : .opened tree.root.tag = Event.ofStart tree.root.tag tree.root.ending.isNone := by
    rw [ended]
    rfl
  rw [opened] at reached
  obtain ⟨_, next, _, root', decoded', ran, _, begun⟩ := run_front reached
  obtain rfl := Except.ok.inj (decoded.symm.trans decoded')
  obtain ⟨_, _, rfl⟩ | ⟨other, _⟩ := begun
  · have begun : Begun { inRoot tree root with
        place := if tree.root.ending.isNone then .finished else .root } := by
      rw [ended]
      constructor
      · intro placed
        cases placed
      · intro _
        rfl
    obtain ⟨base, _, within, entities⟩ := run_frame begun ran
    exact ⟨base, entities plain, within⟩
  · exact absurd ((OpenTag.name_eq_rootName decoded).mpr holds) other

private theorem run_inner_root {root : OpenTag}
    (ran : ({ inRoot tree root with
      place := if tree.root.ending.isNone then .finished else .root } : Reader).run
        tree.root.inner = .ok (elements, last)) :
    ∃ ds entities, elements = ds.map Description.element ∧
      last = { (inRoot tree root).afterDescriptions ds entities with place := .finished } ∧
      List.Forall₂ (fun b d => d.Of root.base? b) (Branch.children tree.root.content) ds ∧
      (Event.Plain (Node.eventsOf tree.root.content) →
        (Branch.children tree.root.content).mapM
          (Description.ofBranch root.base? (entitiesOf tree)) = .ok ds) := by
  obtain ⟨prolog, isQuiet, ⟨tag, content, ending, isWhole⟩, epilog⟩ := tree
  cases ending with
  | none =>
    obtain rfl := isWhole rfl
    obtain ⟨rfl, rfl⟩ := Prod.mk.inj (Except.ok.inj ran)
    exact ⟨[], _, rfl, rfl, .nil, fun _ => rfl⟩
  | some name =>
    obtain ⟨_, inside, _, ranContent, ranEnd, rfl⟩ := run_append.mp ran
    obtain ⟨_, closing, rfl⟩ := run_singleton.mp ranEnd
    obtain ⟨ds, entities, rfl, rfl, described, exactly⟩ :=
      run_descriptions content rfl rfl ranContent
    obtain ⟨rfl, rfl⟩ := Prod.mk.inj (Except.ok.inj closing)
    exact ⟨ds, entities, List.append_nil _, rfl, described, exactly⟩

/-- A document is read description by description. -/
theorem run_tree (ran : start.run tree.events = .ok (elements, last)) :
    ∃ root ds, OpenTag.ofTag (entitiesOf tree) tree.root.tag = .ok root ∧
      elements = ds.map Description.element ∧
      last.notices = Distinct.ofList (ds.flatMap Description.notices) ∧
      List.Forall₂ (fun b d => Description.Of root.base? b d) (descriptionsIn tree) ds ∧
      (holdsDescriptions tree.root.tag → Event.Plain (Node.eventsOf tree.root.content) →
        (Branch.children tree.root.content).mapM
          (Description.ofBranch root.base? (entitiesOf tree)) = .ok ds) := by
  rw [Tree.events, Branch.events, List.append_assoc, List.cons_append] at ran
  obtain ⟨element, next, _, root, decoded, ranRest, rfl, begun⟩ := run_front ran
  obtain ⟨_, inside, _, ranInner, ranEpilog, rfl⟩ := run_append.mp ranRest
  rcases begun with ⟨named, rfl, rfl⟩ | ⟨other, begun⟩
  · have holds := (OpenTag.name_eq_rootName decoded).mp named
    obtain ⟨ds, entities, rfl, rfl, described, exactly⟩ := run_inner_root ranInner
    obtain ⟨rfl, rfl⟩ := Prod.mk.inj (Except.ok.inj ((run_finished rfl).symm.trans ranEpilog))
    refine ⟨root, ds, decoded, by simp, rfl, ?_, fun _ => exactly⟩
    rw [descriptionsIn, if_pos holds]
    exact described
  · have single := fun holds => other ((OpenTag.name_eq_rootName decoded).mpr holds)
    obtain ⟨d, entities, given, rfl, begins, accounted, _⟩ := run_description begun ranInner
    obtain ⟨rfl, rfl⟩ := Prod.mk.inj (Except.ok.inj ((run_finished rfl).symm.trans ranEpilog))
    refine ⟨root, [d], decoded, ?_, rfl, ?_, fun holds => absurd holds single⟩
    · rw [← List.append_assoc, given, List.append_nil]
      rfl
    · rw [descriptionsIn, if_neg single]
      exact .cons ⟨_, root, decoded, begins, accounted⟩ .nil

end Reader

end ContentImport.Ontology
