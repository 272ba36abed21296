import ContentImport.Proofs.Ontology.Children
import ContentImport.Proofs.Ontology.Truncation

/-!
What is kept of the properties of a document that is read to its end. A property states its value
once or there is a notice about it, unless its value is a blank node: then it states nothing, and
nothing tells so.
-/

set_option autoImplicit false
set_option relaxedAutoImplicit false

namespace ContentImport.Ontology

open ContentImport.Markup (Branch Bytes Entities Event Node Tree ascii)

/-- Whether a property of a description is settled by its account: it makes one statement with its
predicate, or one of the notices names the predicate and what the description is about. With a
blank node as its value it makes neither. -/
def Account.Settles (notices : List String) (d : Description) (b : Branch) (a : Account) : Prop :=
  ∃ entities tag, OpenTag.ofTag entities b.tag = .ok tag ∧
    Reader.nameIri tag.name = .ok a.predicate ∧
    (tag.kind ≠ .blankNode ∧
        ((∃ object, a.statements = [⟨a.predicate, object⟩]) ∨
          a.statements = [] ∧ Reader.notice d.element a.predicate ∈ notices) ∨
      tag.kind = .blankNode ∧ a.statements = [] ∧ a.notices d.about = [])

private theorem Account.Of.settles {base : Option String} {b : Branch} {a : Account}
    {d : Description}
    {notices : List String} (accounted : a.Of base b)
    (kept : ∀ notice ∈ a.notices d.about, notice ∈ notices) : a.Settles notices d b := by
  obtain ⟨entities, tag, text, decoded, made⟩ := accounted
  obtain ⟨named, becomes⟩ := ofProperty_eq_ok.mp made
  refine ⟨entities, tag, decoded, named, ?_⟩
  obtain ⟨predicate, outcome⟩ := a
  unfold Outcome.ofProperty at becomes
  cases kind : tag.kind with
  | resource name =>
    rw [kind] at becomes
    obtain ⟨iri, _, rfl⟩ := Attempt.map_eq_ok.mp becomes
    exact .inl ⟨nofun, .inl ⟨.resource iri, rfl⟩⟩
  | blankNode =>
    rw [kind] at becomes
    obtain rfl := Except.ok.inj becomes
    exact .inr ⟨rfl, rfl, rfl⟩
  | markup =>
    rw [kind] at becomes
    obtain rfl := Except.ok.inj becomes
    exact .inl ⟨nofun, .inl ⟨.literal (Stand.markupLiteral (written b.content)), rfl⟩⟩
  | text =>
    rw [kind] at becomes
    by_cases nests : tag.nests b.content = true
    · obtain rfl := Except.ok.inj ((if_pos nests).symm.trans becomes)
      exact .inl ⟨nofun, .inr ⟨rfl, kept _ (List.mem_singleton_self _)⟩⟩
    · obtain ⟨l, _, rfl⟩ := Attempt.map_eq_ok.mp ((if_neg nests).symm.trans becomes)
      exact .inl ⟨nofun, .inl ⟨.literal l, rfl⟩⟩

private theorem forall₂_mem_right {α β : Type} {R : α → β → Prop} {xs : List α} {ys : List β}
    (related : List.Forall₂ R xs ys) : List.Forall₂ (fun x y => y ∈ ys ∧ R x y) xs ys := by
  have flipped : List.Forall₂ (fun y x => y ∈ ys ∧ R x y) ys xs :=
    (List.forall₂_and_left ys xs).mpr ⟨fun _ member => member, related.flip⟩
  exact flipped.flip

/-- A document that is read to its end is the document of a tree, or has no element. Its notices are
those about the properties of its descriptions, each once, and each of these properties is settled
in the element that its description gives. -/
theorem Reading.properties_settled {bytes : Bytes} (read : (ofBytes bytes).fault = none) :
    ((∀ event ∈ (Event.scan bytes).items, event.isQuiet = true) ∨
        ∃ tree : Tree, (Event.scan bytes).items = tree.events) ∧
      ∀ tree : Tree, (Event.scan bytes).items = tree.events →
        ∃ root ds, OpenTag.ofTag (entitiesOf tree) tree.root.tag = .ok root ∧
          (ofBytes bytes).elements = ds.map Description.element ∧
          (ofBytes bytes).notices = Distinct.ofList (ds.flatMap Description.notices) ∧
          List.Forall₂ (fun b d => ∃ entities tag, OpenTag.ofTag entities b.tag = .ok tag ∧
              d.Begins root.base? tag ∧
              List.Forall₂ (Account.Settles (ofBytes bytes).notices d) (Branch.children b.content)
                d.accounts)
            (descriptionsIn tree) ds := by
  obtain ⟨last, ran, noted, _⟩ := exists_run read
  rw [← ofBytes] at ran noted
  constructor
  · rcases Event.scan_cases bytes with quiet | tree | ⟨front, tag, inside, items, quiet, unended⟩
    · exact .inl quiet
    · exact .inr tree
    · obtain ⟨stop, breaksOff, _⟩ :=
        @exists_breaksOff (Event.scan bytes).fault _ _ tag quiet unended
      rw [← items] at breaksOff
      cases read.symm.trans breaksOff
  · intro tree scanned
    rw [scanned] at ran
    obtain ⟨root, ds, decoded, elements, notices, described, _⟩ := Reader.run_tree ran
    have all := noted.trans notices
    refine ⟨root, ds, decoded, elements, all, (forall₂_mem_right described).imp ?_⟩
    rintro b d ⟨member, entities, tag, decoded, begins, accounted⟩
    refine ⟨entities, tag, decoded, begins, (forall₂_mem_right accounted).imp ?_⟩
    rintro p a ⟨held, accounted⟩
    refine accounted.settles fun notice given => ?_
    rw [all, Distinct.mem_ofList]
    exact List.mem_flatMap.mpr ⟨d, member, List.mem_flatMap.mpr ⟨a, held, given⟩⟩

/-- Of the three properties of a page one is left out, one has a blank node as its value, and one
states something. -/
theorem Reading.properties_settled_page :
    (ofBytes plainPageDocument).fault = none ∧
      (ofBytes plainPageDocument).notices =
        ["Statement 'kin' of a blank node has nested content and was skipped."] ∧
      (ofBytes plainPageDocument).elements =
        [⟨none, [], [⟨⟨"e:title", by decide +kernel⟩, .literal (.plain "Page")⟩]⟩] ∧
      ∃ ds, (ofBytes plainPageDocument).elements = ds.map Description.element ∧
        List.Forall₂ (fun b d => List.Forall₂
            (Account.Settles (ofBytes plainPageDocument).notices d) (Branch.children b.content)
              d.accounts)
          (Branch.children (sampleTree plainPage).root.content) ds := by
  have read : (ofBytes plainPageDocument).fault = none ∧
      (ofBytes plainPageDocument).notices =
        ["Statement 'kin' of a blank node has nested content and was skipped."] ∧
      (ofBytes plainPageDocument).elements =
        [⟨none, [], [⟨⟨"e:title", by decide +kernel⟩, .literal (.plain "Page")⟩]⟩] := by
    rw [ofBytes, plainPage_scan]
    decide +kernel
  obtain ⟨read, notices, elements⟩ := read
  have scanned := congrArg Markup.Sequence.items plainPage_scan
  obtain ⟨_, ds, _, given, _, settled⟩ := (properties_settled read).2 _ scanned
  have holds : holdsDescriptions (sampleTree plainPage).root.tag := by decide +kernel
  rw [descriptionsIn, if_pos holds] at settled
  refine ⟨read, notices, elements, ds, given, settled.imp ?_⟩
  rintro b d ⟨_, _, _, _, each⟩
  exact each

end ContentImport.Ontology
