import ContentImport.ImportSource
import ContentImport.Proofs.Ontology.Run

/-!
Documents that end too early. Once the root has begun, or a description in its place, the end of the
events is no end of the document until its end tag was read, however deep they end and in whatever
the reader stands. So no graph is opened on a part of a document.
-/

set_option autoImplicit false
set_option relaxedAutoImplicit false

namespace ContentImport.Ontology

open ContentImport.Markup (Bytes Event ascii)

/-- A reading that breaks off: it has given the elements of the events so far, and it stops with a
fault. The fault is that of the first event that cannot be taken, and else that the document ends
within an element, or within a token. -/
def Reading.BreaksOff (fault : Option Markup.Fault) (events : List Event) (reading : Reading)
    (stop : ReadFault) : Prop :=
  reading.fault = some stop ∧
    ((∃ last, Reader.start.run events = .ok (reading.elements, last) ∧
        stop = fault.elim .unexpectedEnd .malformed) ∨
      ∃ front event rest last, events = front ++ event :: rest ∧
        Reader.start.run front = .ok (reading.elements, last) ∧ last.step event = .error stop)

/-- Events that begin the root and do not end it are read up to a fault. -/
theorem Reading.exists_breaksOff (fault : Option Markup.Fault) {front inside : List Event}
    {tag : Markup.Tag} (quiet : ∀ event ∈ front, event.isQuiet = true)
    (unended : Event.closes 0 inside = false) :
    ∃ stop, BreaksOff fault (front ++ .opened tag :: inside)
      (ofEvents fault Reader.start (front ++ .opened tag :: inside)) stop := by
  rcases ofEvents_cases fault Reader.start (front ++ .opened tag :: inside) with
    ⟨elements, last, ran, same⟩ |
    ⟨before, event, rest, elements, last, stop, split, ran, stopped, same⟩
  · rw [same]
    refine ⟨fault.elim .unexpectedEnd .malformed, ?_, .inl ⟨last, ran, rfl⟩⟩
    obtain ⟨_, middle, _, prolog, opening, _⟩ := Reader.run_append.mp ran
    obtain ⟨_, rfl⟩ := Reader.run_prolog rfl quiet prolog
    obtain ⟨element, next, _, stepped, content, _⟩ := Reader.run_cons.mp opening
    obtain ⟨_, begun, top⟩ := Reader.begun_of_step_prolog rfl rfl stepped
    obtain ⟨depth, deep⟩ := Reader.run_depth begun top unended content
    exact Reader.faultAtEnd_of_depth deep fault
  · rw [same]
    exact ⟨stop, rfl, .inr ⟨before, event, rest, last, split, ran, stopped⟩⟩

/-- On events that begin the root and do not end it the reading breaks off, and neither way to
answer questions about an ontology opens a document with these events. -/
theorem Reading.truncated_rejected {fault : Option Markup.Fault} {front inside : List Event}
    {tag : Markup.Tag} (quiet : ∀ event ∈ front, event.isQuiet = true)
    (unended : Event.closes 0 inside = false) :
    ∃ stop, BreaksOff fault (front ++ .opened tag :: inside)
        (ofEvents fault Reader.start (front ++ .opened tag :: inside)) stop ∧
      ∀ document, Event.scan document = ⟨front ++ .opened tag :: inside, fault⟩ →
        ∀ (strategy : AccessStrategy) (anchors : Anchors) (path : String),
          Graph.ofBytes strategy anchors document = .error stop ∧
            openGraph strategy anchors path (.file document) = .error (.ontology path stop) := by
  obtain ⟨stop, breaksOff⟩ := exists_breaksOff fault quiet unended
  refine ⟨stop, breaksOff, fun document scanned strategy anchors path => ?_⟩
  have refused : whole document = .error stop := by
    have read : (ofBytes document).fault = some stop := by
      rw [ofBytes, scanned]
      exact breaksOff.1
    rw [whole]
    simp only [read]
  constructor
  · rw [Graph.ofBytes, refused]
    rfl
  · rw [openGraph, readOntology, refused]
    rfl

/-- A document that breaks off within a property, behind the first of two descriptions. -/
def halfDocument : Bytes :=
  ascii ("<r:RDF xmlns:r='" ++ rdf ++ "' xmlns:d='e:'><r:Description/><r:Description><d:title>Hel")

def halfRoot : Markup.Tag where
  content := ascii ("r:RDF xmlns:r='" ++ rdf ++ "' xmlns:d='e:'")
  scope := ⟨some (ascii "d"), ascii "e:"⟩ :: ⟨some (ascii "r"), ascii rdf⟩ :: Markup.Scope.outermost

def halfContent : List Event :=
  [.whole { halfRoot with content := ascii "r:Description" },
    .opened { halfRoot with content := ascii "r:Description" },
    .opened { halfRoot with content := ascii "d:title" }, .text (ascii "Hel")]

theorem Reading.truncated_rejected_halfDocument :
    Event.scan halfDocument = ⟨[] ++ .opened halfRoot :: halfContent, none⟩ ∧
      Event.closes 0 halfContent = false ∧ (ofBytes halfDocument).elements = [.empty none] ∧
        (ofBytes halfDocument).fault = some .unexpectedEnd ∧
          ∀ strategy anchors, Graph.ofBytes strategy anchors halfDocument = .error .unexpectedEnd := by
  have scanned : Event.scan halfDocument = ⟨[] ++ .opened halfRoot :: halfContent, none⟩ := by
    decide +kernel
  have unended : Event.closes 0 halfContent = false := by decide +kernel
  have read : (ofBytes halfDocument).fault = some .unexpectedEnd := by decide +kernel
  refine ⟨scanned, unended, by decide +kernel, read, fun strategy anchors => ?_⟩
  have quiet : ∀ event ∈ ([] : List Event), event.isQuiet = true := by simp
  obtain ⟨stop, ⟨stopped, _⟩, refused⟩ :=
    @truncated_rejected none [] halfContent halfRoot quiet unended
  rw [ofBytes, scanned, stopped] at read
  rw [← Option.some.inj read]
  exact (refused halfDocument scanned strategy anchors "").1

end ContentImport.Ontology
