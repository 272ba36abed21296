import ContentImport.Proofs.Markup.EntityText
import ContentImport.Proofs.Ontology.Run
import ContentImport.Proofs.Ontology.Stand

/-!
Entities that a document type declares, wherever behind it they are referred to. A reference is
replaced by the value of the last declaration that is written in the document type, whether it is in
a comment or not, as it stands there.
-/

set_option autoImplicit false
set_option relaxedAutoImplicit false

namespace ContentImport.Ontology

open ContentImport.Markup (Bytes Event InternalSubset ascii)
open ContentImport.Markup.Entities (Declaration StandsFor last?)

namespace Reader

variable {r last : Reader} {bytes content : Bytes} {event : Event} {events : List Event}
  {elements : List Element} {text : List Char}

/-- What a reader makes of bytes, in text and in the value of an attribute. -/
structure Shows (r : Reader) (bytes : Bytes) (text : List Char) : Prop where
  inText : Signal.ofEvent r.entities (.text bytes) = .ok (.text text)
  inValue : ∀ (scope : Markup.Scope) (key : Bytes) (others : List Markup.Attribute),
    Markup.Token.after? "xmlns" key = none →
      OpenTag.decodeAttributes r.entities scope (⟨key, bytes⟩ :: others) =
        (OpenTag.decodeAttributes r.entities scope others).map
          ((OpenTag.attributeName scope key, String.ofList text) :: ·)

private theorem shows_iff :
    r.Shows bytes text ↔ Markup.Reference.decode r.entities bytes = .ok text := by
  constructor
  · intro shows
    obtain ⟨decoded, read, same⟩ := Attempt.map_eq_ok.mp shows.inText
    obtain rfl := Signal.text.inj same
    exact read
  · intro read
    constructor
    · rw [Signal.ofEvent, read]
      rfl
    · intro scope key others unbound
      rw [OpenTag.decodeAttributes, unbound, read]
      cases OpenTag.decodeAttributes r.entities scope others <;> rfl

private theorem step_plain (placed : r.place = .prolog) (bare : r.bare = false)
    (plain : event.isDoctype = false) {element : Option Element} {next : Reader}
    (stepped : r.step event = .ok (element, next)) :
    next.entities = r.entities ∧ (next = r ∨ next.Begun) := by
  have started (tag : Markup.Tag) (whole : Bool)
      (stepped : r.step (.ofStart tag whole) = .ok (element, next)) :
      next.entities = r.entities ∧ (next = r ∨ next.Begun) := by
    obtain ⟨opened, -, ⟨-, -, rfl⟩ | ⟨-, begun⟩⟩ := step_prolog whole placed stepped
    · refine ⟨rfl, .inr ⟨?_, fun _ => bare⟩⟩
      cases whole <;> exact nofun
    · obtain ⟨e, -, same⟩ := Attempt.map_eq_ok.mp begun
      refine ⟨?_, .inr ?_⟩ <;> cases whole <;> obtain ⟨rfl, rfl⟩ := Prod.mk.inj same <;>
        first | rfl | exact ⟨nofun, nofun⟩
  cases event with
  | opened tag => exact started tag false stepped
  | whole tag => exact started tag true stepped
  | closed name =>
    obtain ⟨place, base, bare, entities, notices⟩ := r
    obtain rfl := placed
    obtain ⟨rfl, rfl⟩ := Prod.mk.inj (Except.ok.inj stepped)
    exact ⟨rfl, .inl rfl⟩
  | doctype => cases plain
  | _ =>
    obtain ⟨-, rfl⟩ := step_between (.inl placed) rfl stepped
    exact ⟨rfl, .inl rfl⟩

private theorem run_entities (placed : r.place = .prolog) (bare : r.bare = false)
    (plain : Event.Plain events) (ran : r.run events = .ok (elements, last)) :
    last.entities = r.entities := by
  induction events generalizing elements with
  | nil =>
    obtain ⟨rfl, rfl⟩ := Prod.mk.inj (Except.ok.inj ran)
    rfl
  | cons event events ih =>
    obtain ⟨first, others⟩ := List.forall_mem_cons.mp plain
    obtain ⟨element, next, later, stepped, rest, rfl⟩ := run_cons.mp ran
    obtain ⟨same, rfl | begun⟩ := step_plain placed bare first stepped
    · exact ih others rest
    · exact ((run_frame begun rest).2.2.2 others).trans same

/-- Behind a document type, a reference to an entity is shown as the value of the last declaration
that is written in it, whether that is in a comment or not, as the value stands there. That is what
the grammar of markup gives where it is the replacement text of the first declaration, with the
references in it replaced in turn, and only there. -/
theorem shows_reference {subset : InternalSubset} {name front back shown behind : List Char}
    (placed : r.place = .prolog) (bare : r.bare = false) (formed : subset.WellFormed)
    (written : Text.Utf8.decodeLenient content = subset.source)
    (ran : r.run (.doctype content :: events) = .ok (elements, last))
    (plain : Event.Plain events) (own : Markup.Reference.predefined? name = none)
    (standsFor : StandsFor subset.declared name text)
    (decoded : Text.Utf8.decode? bytes = some (front ++ '&' :: (name ++ ';' :: back)))
    (before : Markup.Reference.expand last.entities front = .ok shown)
    (after : Markup.Reference.expand last.entities back = .ok behind) :
    ∃ value, last? subset.written name = some value ∧
      last.Shows bytes (shown ++ (value ++ behind)) ∧
      (last.Shows bytes (shown ++ (text ++ behind)) ↔ value = text) := by
  obtain ⟨declaredValue, first⟩ := standsFor.exists_first
  have listed := Markup.Entities.mem_of_first? first
  obtain ⟨value, found⟩ := Markup.Entities.exists_last (subset.declared_subset_written listed)
  have declared : last.entities = r.entities.declare content := by
    obtain ⟨element, next, later, stepped, rest, rfl⟩ := run_cons.mp ran
    obtain ⟨-, rfl⟩ := step_between (.inl placed) rfl stepped
    exact run_entities (r := { r with entities := _ }) placed bare plain rest
  obtain ⟨ordinary, unnumbered⟩ := (InternalSubset.isName_of_mem_declared formed listed).ordinary
  have meant : Markup.Reference.text? last.entities name = some value := by
    rw [Markup.Reference.text?_eq_entity? unnumbered, declared]
    refine Markup.Entities.entity?_declare ?_ own
    rw [written, InternalSubset.declarations_source formed, found]
  have shows : Markup.Reference.decode last.entities bytes = .ok (shown ++ (value ++ behind)) := by
    rw [Markup.Reference.decode, decoded]
    exact Markup.Reference.expand_reference ordinary meant before after
  refine ⟨value, found, shows_iff.mpr shows, ?_⟩
  rw [shows_iff, shows, Except.ok.injEq, List.append_cancel_left_eq, List.append_cancel_right_eq]

/-- A namespace that was moved: the declaration of its former place is commented out. -/
def movedNamespace (value : String) : Declaration :=
  ⟨['d'], value.toList, '"', [' '], [' '], []⟩

def movedSubset : InternalSubset where
  root := "r:RDF ".toList
  items := [.declaration (movedNamespace "e:new#"),
    .comment [("was ".toList, movedNamespace "e:old#")] []]
  trail := []

theorem shows_reference_movedSubset :
    let content := ascii "r:RDF [<!ENTITY d \"e:new#\"><!--was <!ENTITY d \"e:old#\">-->]"
    let last : Reader := { start with entities := movedSubset.written.reverse }
    let document := ascii "<!DOCTYPE " ++ content ++
      ascii (">\n<r:Description xmlns:r='" ++ rdf ++ "' r:about='&d;page'/>")
    start.run [.doctype content] = .ok ([], last) ∧
      StandsFor movedSubset.declared ['d'] "e:new#".toList ∧
      last.Shows (ascii "&d;page") "e:old#page".toList ∧
      ¬ last.Shows (ascii "&d;page") "e:new#page".toList ∧
      (Reading.ofBytes document).elements = [.empty (some ⟨"e:old#page", by decide +kernel⟩)] := by
  intro content last document
  have formed (value : String) (unquoted : '"' ∉ value.toList) :
      (movedNamespace value).WellFormed :=
    { name := ⟨'d', [], rfl, by decide, by simp⟩
      quote := .inl rfl
      value := unquoted
      beforeName := ⟨by simp [movedNamespace], by simp [movedNamespace]; decide⟩
      beforeValue := ⟨by simp [movedNamespace], by simp [movedNamespace]; decide⟩
      beforeEnd := by simp [movedNamespace] }
  have subsetFormed : movedSubset.WellFormed :=
    { root := by decide +kernel
      items := by
        intro item member
        rcases List.mem_pair.mp member with rfl | rfl
        · exact formed _ (by decide)
        · refine ⟨?_, by decide +kernel, by decide +kernel⟩
          intro stretch member
          obtain rfl := List.mem_singleton.mp member
          exact ⟨by decide +kernel, formed _ (by decide)⟩
      trail := by simp [movedSubset] }
  have ran : start.run [.doctype content] = .ok ([], last) := by decide +kernel
  have standsFor : StandsFor movedSubset.declared ['d'] "e:new#".toList :=
    .of_plain (by decide +kernel) (by decide)
  have decoded : Text.Utf8.decode? (ascii "&d;page") =
      some ([] ++ '&' :: (['d'] ++ ';' :: "page".toList)) := by
    decide +kernel
  have behind : Markup.Reference.expand last.entities "page".toList = .ok "page".toList := by
    decide +kernel
  obtain ⟨value, found, shows, same⟩ := shows_reference rfl rfl subsetFormed (by decide +kernel) ran
    nofun (by decide +kernel) standsFor decoded rfl behind
  obtain rfl : "e:old#".toList = value := by
    have old : last? movedSubset.written ['d'] = some "e:old#".toList := by decide +kernel
    exact Option.some.inj (old.symm.trans found)
  refine ⟨ran, standsFor, shows, ?_, by decide +kernel⟩
  exact fun moved => absurd (same.mp moved) (by decide)

end Reader

end ContentImport.Ontology
