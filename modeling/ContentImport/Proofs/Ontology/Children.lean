import ContentImport.Proofs.Ontology.Description

/-!
Documents read child by child. Each description below the root gives one element, and what that
element says is found from the description alone. Of the content of a property no more counts than
its kind takes from it, and the markup that nests in it moves nothing behind it.
-/

set_option autoImplicit false
set_option relaxedAutoImplicit false

namespace ContentImport.Ontology

open ContentImport.Markup (Branch Bytes Entities Event Node Tree ascii)

/-! ## What counts of the content of a property -/

/-- Whether two contents count for the same in a property. Nothing in it counts where the value is
named, the markup as it is written where it is the value, and else the text, unless there is more in
it than text. -/
def OpenTag.CountsAlike (tag : OpenTag) (entities : Entities) (content content' : List Node) :
    Prop :=
  match tag.kind with
  | .resource _ | .blankNode => True
  | .markup => written content = written content'
  | .text => tag.nests content = tag.nests content' ∧
      (tag.nests content = false → directText entities content = directText entities content')

/-- Whether two properties differ in nothing that counts. -/
def PropertiesAlike (entities : Entities) (b b' : Branch) : Prop :=
  b.tag = b'.tag ∧ ∀ tag, OpenTag.ofTag entities b.tag = .ok tag →
    tag.CountsAlike entities b.content b'.content

/-- Whether two descriptions differ in nothing that counts. -/
def DescriptionsAlike (entities : Entities) (b b' : Branch) : Prop :=
  b.tag = b'.tag ∧ List.Forall₂ (PropertiesAlike entities) (Branch.children b.content)
    (Branch.children b'.content)

private theorem OpenTag.CountsAlike.refl (tag : OpenTag) (entities : Entities)
    (content : List Node) :
    tag.CountsAlike entities content content := by
  unfold CountsAlike
  split
  · trivial
  · trivial
  · rfl
  · exact ⟨rfl, fun _ => rfl⟩

section Alike

variable {base : Option String} {entities : Entities} {b b' : Branch}

private theorem Account.ofBranch_alike {a a' : Account} (alike : PropertiesAlike entities b b')
    (made : ofBranch base entities b = .ok a) (made' : ofBranch base entities b' = .ok a') :
    a = a' := by
  obtain ⟨tag, text, decoded, known, made⟩ := ofBranch_eq_ok.mp made
  obtain ⟨tag', text', decoded', known', made'⟩ := ofBranch_eq_ok.mp made'
  obtain ⟨sameTag, counts⟩ := alike
  obtain rfl : tag = tag' := by
    rw [← sameTag] at decoded'
    exact Except.ok.inj (decoded.symm.trans decoded')
  have counts := counts tag decoded
  have same : ofProperty base tag text b.content = ofProperty base tag text' b'.content := by
    unfold ofProperty Outcome.ofProperty
    unfold OpenTag.CountsAlike at counts
    cases kind : tag.kind with
    | resource | blankNode => rfl
    | markup =>
      rw [kind] at counts
      rw [counts]
    | text =>
      rw [kind] at counts
      obtain ⟨nests, texts⟩ := counts
      rw [nests]
      cases more : tag.nests b'.content with
      | true => rfl
      | false =>
        have same := texts (nests.trans more)
        rw [known kind, known' kind] at same
        rw [Except.ok.inj same]
  exact Except.ok.inj (made.symm.trans (same.trans made'))

private theorem Description.ofBranch_alike {d d' : Description}
    (alike : DescriptionsAlike entities b b')
    (made : ofBranch base entities b = .ok d) (made' : ofBranch base entities b' = .ok d') :
    d = d' := by
  obtain ⟨tag, decoded, begins, accounted⟩ := ofBranch_eq_ok.mp made
  obtain ⟨tag', decoded', begins', accounted'⟩ := ofBranch_eq_ok.mp made'
  obtain ⟨sameTag, properties⟩ := alike
  obtain rfl : tag = tag' := by
    rw [← sameTag] at decoded'
    exact Except.ok.inj (decoded.symm.trans decoded')
  have accounts : d.accounts = d'.accounts :=
    Attempt.mapM_unique (f := Account.ofBranch base entities)
      (fun _ _ _ _ alike made made' => Account.ofBranch_alike alike made made') properties accounted
      accounted'
  have about : d.about = d'.about := Except.ok.inj (begins.about.symm.trans begins'.about)
  have declared : d.declared = d'.declared :=
    Except.ok.inj (begins.declared.symm.trans begins'.declared)
  have given : d.given = d'.given := Except.ok.inj (begins.given.symm.trans begins'.given)
  cases d
  cases d'
  congr

end Alike

/-! ## Documents -/

namespace Reader

private theorem run_at_property {tree : Tree} {root : OpenTag} {last r : Reader}
    {front rest : List Event}
    {elements before : List Element} {e : Element} {b : Branch}
    (holds : holdsDescriptions tree.root.tag)
    (decoded : OpenTag.ofTag (entitiesOf tree) tree.root.tag = .ok root)
    (plain : Event.Plain (Node.eventsOf tree.root.content))
    (ran : start.run tree.events = .ok (elements, last))
    (located : Node.eventsOf tree.root.content = front ++ b.events ++ rest)
    (reached : start.run (tree.prolog ++ .opened tree.root.tag :: front) = .ok (before, r))
    (placed : r.place = .description e) :
    ∃ a, Account.ofBranch root.base? (entitiesOf tree) b = .ok a ∧
      r.run b.events = .ok ([], r.behind e [a] r.entities) := by
  have filled : tree.root.content ≠ [] := by
    intro empty
    rw [empty, Branch.events] at located
    simp [Node.eventsOf] at located
  obtain ⟨name, ended⟩ : ∃ name, tree.root.ending = some name :=
    Option.ne_none_iff_exists'.mp fun none => filled (tree.root.isWhole none)
  -- What is read of the document up to the property is what is read of its front.
  have split : tree.events = (tree.prolog ++ .opened tree.root.tag :: front) ++
      (b.events ++ (rest ++ .closed name :: tree.epilog)) := by
    rw [Tree.events, Branch.events_of_ending ended, located]
    simp
  rw [split] at ran
  obtain ⟨_, _, _, reached', ranRest, _⟩ := run_append.mp ran
  obtain ⟨rfl, rfl⟩ := Prod.mk.inj (Except.ok.inj (reached.symm.trans reached'))
  obtain ⟨_, _, _, ranProperty, _, _⟩ := run_append.mp ranRest
  have plainParts := plain
  rw [located] at plainParts
  obtain ⟨plainUpTo, _⟩ := List.forall_mem_append.mp plainParts
  obtain ⟨plainFront, plainProperty⟩ := List.forall_mem_append.mp plainUpTo
  obtain ⟨base, entities, begun⟩ := run_within_root ended holds decoded plainFront reached
  have unchanged := (run_frame begun ranProperty).2.2.2 plainProperty
  obtain ⟨rfl, a, later, rfl, _, exactly⟩ := run_branch_description placed ranProperty
  obtain rfl := unchanged
  have made := exactly plainProperty
  rw [base, entities] at made
  exact ⟨a, made, ranProperty⟩

end Reader

/-- A document is read child by child. The root holds descriptions, and a document type stands before
it. Each child of the root gives one element, in document order, with what its attributes state and
then what its properties state, and the notices are those about its properties. At each property the
reader comes to the end tag, whatever is in it, with the account of the property alone. So what does
not count in the properties of a document changes nothing. -/
theorem Reading.child_by_child {bytes : Bytes} {tree : Tree}
    (scanned : (Event.scan bytes).items = tree.events) (holds : holdsDescriptions tree.root.tag)
    (plain : Event.Plain (Node.eventsOf tree.root.content)) (read : (ofBytes bytes).fault = none) :
    ∃ root, OpenTag.ofTag (entitiesOf tree) tree.root.tag = .ok root ∧
      (∃ ds, (Branch.children tree.root.content).mapM
            (Description.ofBranch root.base? (entitiesOf tree)) = .ok ds ∧
          (ofBytes bytes).elements = ds.map Description.element ∧
          (ofBytes bytes).notices = Distinct.ofList (ds.flatMap Description.notices)) ∧
      (∀ (front rest : List Event) (b : Branch) (before : List Element) (r : Reader) (e : Element),
        Node.eventsOf tree.root.content = front ++ b.events ++ rest →
          Reader.start.run (tree.prolog ++ .opened tree.root.tag :: front) = .ok (before, r) →
            r.place = .description e →
              ∃ a, Account.ofBranch root.base? (entitiesOf tree) b = .ok a ∧
                r.run b.events = .ok ([], r.behind e [a] r.entities)) ∧
      ∀ (other : Bytes) (tree' : Tree), (Event.scan other).items = tree'.events →
        tree'.prolog = tree.prolog → tree'.root.tag = tree.root.tag →
          Event.Plain (Node.eventsOf tree'.root.content) → (ofBytes other).fault = none →
            List.Forall₂ (DescriptionsAlike (entitiesOf tree)) (Branch.children tree.root.content)
                (Branch.children tree'.root.content) →
              (ofBytes other).elements = (ofBytes bytes).elements ∧
                (ofBytes other).notices = (ofBytes bytes).notices := by
  obtain ⟨last, ran, noted, _⟩ := exists_run read
  rw [← ofBytes] at ran noted
  rw [scanned] at ran
  obtain ⟨root, ds, decoded, elements, notices, _, exactly⟩ := Reader.run_tree ran
  have made := exactly holds plain
  refine ⟨root, decoded, ⟨ds, made, elements, noted.trans notices⟩, ?_, ?_⟩
  · intro front rest b before r e located reached placed
    exact Reader.run_at_property holds decoded plain ran located reached placed
  · intro other tree' scanned' prolog tag plain' read' alike
    obtain ⟨last', ran', noted', _⟩ := exists_run read'
    rw [← ofBytes] at ran' noted'
    rw [scanned'] at ran'
    obtain ⟨root', ds', decoded', elements', notices', _, exactly'⟩ := Reader.run_tree ran'
    have entities : entitiesOf tree' = entitiesOf tree := by rw [entitiesOf, prolog, entitiesOf]
    rw [entities, tag] at decoded' exactly'
    obtain rfl := Except.ok.inj (decoded.symm.trans decoded')
    obtain rfl : ds = ds' :=
      Attempt.mapM_unique (f := Description.ofBranch root.base? (entitiesOf tree))
        (fun _ _ _ _ alike made made' => Description.ofBranch_alike alike made made') alike made
        (exactly' holds plain')
    exact ⟨elements'.trans elements.symm, (noted'.trans notices').trans (noted.trans notices).symm⟩

/-! ## Two pages and two literals -/

/-- A tag within a root that binds the prefixes of the samples. -/
def sampleTag (content : String) : Markup.Tag where
  content := ascii content
  scope := ⟨some (ascii "d"), ascii "e:"⟩ :: ⟨some (ascii "r"), ascii rdf⟩ :: Markup.Scope.outermost

def sampleRoot : String :=
  "r:RDF xmlns:r='" ++ rdf ++ "' xmlns:d='e:'"

/-- A document with one description, as text and as a tree. -/
def sampleDocument (properties : String) : Bytes :=
  ascii ("<" ++ sampleRoot ++ "><r:Description>" ++ properties ++ "</r:Description></r:RDF>")

def sampleTree (properties : List Node) : Tree where
  prolog := []
  isQuiet := by simp
  root := ⟨sampleTag sampleRoot,
    [.element (sampleTag "r:Description") properties (ascii "r:Description")],
    some (ascii "r:RDF"), nofun⟩
  epilog := []

def sampleText (text : String) : Node :=
  .quiet (.text (ascii text)) rfl

def nestedPage : List Node :=
  [.element (sampleTag "d:kin") [sampleText "my", .element (sampleTag "r:Description")
      [.whole (sampleTag "d:a")] (ascii "r:Description")] (ascii "d:kin"),
    .element (sampleTag "d:author r:nodeID='n'") [.whole (sampleTag "d:b")] (ascii "d:author"),
    .element (sampleTag "d:title") [sampleText "Page"] (ascii "d:title")]

def plainPage : List Node :=
  [.element (sampleTag "d:kin") [.whole (sampleTag "d:c")] (ascii "d:kin"),
    .whole (sampleTag "d:author r:nodeID='n'"),
    .element (sampleTag "d:title") [sampleText "Page"] (ascii "d:title")]

def nestedPageDocument : Bytes :=
  sampleDocument ("<d:kin>my<r:Description><d:a/></r:Description></d:kin>" ++
    "<d:author r:nodeID='n'><d:b/></d:author><d:title>Page</d:title>")

def plainPageDocument : Bytes :=
  sampleDocument "<d:kin><d:c/></d:kin><d:author r:nodeID='n'/><d:title>Page</d:title>"

private theorem nestedPage_scan :
    Event.scan nestedPageDocument = ⟨(sampleTree nestedPage).events, none⟩ := by decide +kernel

theorem plainPage_scan :
    Event.scan plainPageDocument = ⟨(sampleTree plainPage).events, none⟩ := by decide +kernel

private theorem pages_alike :
    List.Forall₂ (DescriptionsAlike [])
      (Branch.children (sampleTree nestedPage).root.content)
      (Branch.children (sampleTree plainPage).root.content) := by
  refine .cons ⟨rfl, .cons ⟨rfl, ?kin⟩ (.cons ⟨rfl, ?author⟩ (.cons ⟨rfl, ?title⟩ .nil))⟩ .nil
  case kin =>
    intro tag decoded
    have known : OpenTag.ofTag [] (sampleTag "d:kin") = .ok ⟨"e:kin", []⟩ := by decide +kernel
    obtain rfl := Except.ok.inj (decoded.symm.trans known)
    exact ⟨rfl, nofun⟩
  case author =>
    intro tag decoded
    have known : OpenTag.ofTag [] (sampleTag "d:author r:nodeID='n'") =
        .ok ⟨"e:author", [(rdf ++ "nodeID", "n")]⟩ := by decide +kernel
    obtain rfl := Except.ok.inj (decoded.symm.trans known)
    have kind : OpenTag.kind ⟨"e:author", [(rdf ++ "nodeID", "n")]⟩ = .blankNode := by
      decide +kernel
    rw [OpenTag.CountsAlike, kind]
    trivial
  case title => exact fun tag _ => .refl tag _ _

theorem Reading.child_by_child_page :
    (Event.scan nestedPageDocument).items = (sampleTree nestedPage).events ∧
      holdsDescriptions (sampleTree nestedPage).root.tag ∧
      Event.Plain (Node.eventsOf (sampleTree nestedPage).root.content) ∧
      (ofBytes nestedPageDocument).fault = none ∧
      (∃ ds, (Branch.children (sampleTree nestedPage).root.content).mapM
            (Description.ofBranch none []) = .ok ds ∧
          (ofBytes nestedPageDocument).elements = ds.map Description.element) ∧
      (ofBytes plainPageDocument).elements = (ofBytes nestedPageDocument).elements := by
  have scanned := congrArg Markup.Sequence.items nestedPage_scan
  have holds : holdsDescriptions (sampleTree nestedPage).root.tag := by decide +kernel
  have plain : Event.Plain (Node.eventsOf (sampleTree nestedPage).root.content) := by
    decide +kernel
  have read : (ofBytes nestedPageDocument).fault = none := by
    rw [ofBytes, nestedPage_scan]
    decide +kernel
  have read' : (ofBytes plainPageDocument).fault = none := by
    rw [ofBytes, plainPage_scan]
    decide +kernel
  obtain ⟨root, decoded, ⟨ds, made, elements, _⟩, _, same⟩ :=
    child_by_child scanned holds plain read
  have known : OpenTag.ofTag [] (sampleTag sampleRoot) = .ok ⟨rdf ++ "RDF", []⟩ := by decide +kernel
  obtain rfl := Except.ok.inj (decoded.symm.trans known)
  refine ⟨scanned, holds, plain, read, ⟨ds, made, elements⟩, ?_⟩
  have scanned' := congrArg Markup.Sequence.items plainPage_scan
  exact (same _ (sampleTree plainPage) scanned' rfl rfl (by decide +kernel) read' pages_alike).1

/-- Two literals of one property with one text, one of them with an element behind it. -/
def markupPage : List Node :=
  [.element (sampleTag "d:body r:parseType='Literal'")
      [sampleText "a", .whole (sampleTag "d:b")] (ascii "d:body"),
    .element (sampleTag "d:body r:parseType='Literal'") [sampleText "a"] (ascii "d:body")]

/-- What the literals of that property state. -/
def bodyStatement (value : String) : Statement :=
  ⟨⟨"e:body", by decide +kernel⟩, .literal ⟨value, some rdfXmlLiteral, none⟩⟩

def markupPageDocument : Bytes :=
  sampleDocument ("<d:body r:parseType='Literal'>a<d:b/></d:body>" ++
    "<d:body r:parseType='Literal'>a</d:body>")

/-- The statements of properties are not found from their tags and the text directly in them, where
markup is a value. -/
theorem Reading.statements_need_markup :
    (Event.scan markupPageDocument).items = (sampleTree markupPage).events ∧
      holdsDescriptions (sampleTree markupPage).root.tag ∧
      Event.Plain (Node.eventsOf (sampleTree markupPage).root.content) ∧
      (ofBytes markupPageDocument).fault = none ∧
      ¬ ∃ statementsOf : Markup.Tag → Except Markup.Fault (List Char) → List Statement,
        (ofBytes markupPageDocument).elements.map Element.statements =
          [(Branch.children markupPage).flatMap fun b =>
            statementsOf b.tag (directText [] b.content)] := by
  have scanned : Event.scan markupPageDocument = ⟨(sampleTree markupPage).events, none⟩ := by
    decide +kernel
  have read : (ofBytes markupPageDocument).fault = none ∧
      (ofBytes markupPageDocument).elements.map Element.statements =
        [[bodyStatement "a<d:b/>", bodyStatement "a"]] := by
    rw [ofBytes, scanned]
    decide +kernel
  obtain ⟨read, elements⟩ := read
  refine ⟨congrArg Markup.Sequence.items scanned, by decide +kernel, by decide +kernel, read, ?_⟩
  rintro ⟨statementsOf, same⟩
  have twice : [bodyStatement "a<d:b/>", bodyStatement "a"] =
      statementsOf (sampleTag "d:body r:parseType='Literal'") (directText [] [sampleText "a"]) ++
        (statementsOf (sampleTag "d:body r:parseType='Literal'")
          (directText [] [sampleText "a"]) ++ []) :=
    List.cons.inj (elements.symm.trans same) |>.1
  generalize statementsOf _ _ = stated at twice
  have single : stated.length = 1 := by
    have lengths := congrArg List.length twice
    simp only [List.length_cons, List.length_nil, List.length_append] at lengths
    omega
  obtain ⟨s, rfl⟩ := List.length_eq_one_iff.mp single
  obtain ⟨first, rest⟩ := List.cons.inj twice
  exact absurd (first.trans (List.cons.inj rest).1.symm) (by decide +kernel)

end ContentImport.Ontology
