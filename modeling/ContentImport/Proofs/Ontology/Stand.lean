import ContentImport.Ontology.Reading
import ContentImport.Proofs.Markup.Passage

/-!
Where the reading of a document stands between two bytes. A document is read byte by byte: a byte
may end a token, a token is an event within the open elements, and the reader takes the event. What
is read before a place and what is read after it meet in a stand alone.
-/

set_option autoImplicit false
set_option relaxedAutoImplicit false

namespace ContentImport.Ontology

open ContentImport.Markup (Bytes Event Token)

deriving instance DecidableEq for Token.Mode, OpenProperty, Place, Reader

/-- Where the reading of a document stands. -/
structure Stand where
  /-- The token that is being read. -/
  mode : Token.Mode
  /-- The elements that are open, the innermost in front. -/
  around : List Event.OpenElement
  reader : Reader
  deriving DecidableEq

namespace Stand

def start : Stand :=
  ⟨.between, [], Reader.start⟩

def take (mode : Token.Mode) (s : Stand) : Option Token → Except ReadFault (Option Element × Stand)
  | none => .ok (none, { s with mode })
  | some token =>
    match Event.ofToken s.around token with
    | .error fault => .error (.malformed fault)
    | .ok (event, around) =>
      (s.reader.step event).map fun (element, reader) => (element, ⟨mode, around, reader⟩)

/-- Read one byte; where a description ends with it, the element is given. -/
def step (s : Stand) (b : UInt8) : Except ReadFault (Option Element × Stand) :=
  match Token.step s.mode b with
  | .error fault => .error (.malformed fault)
  | .ok (token, mode) => s.take mode token

/-- Read bytes, giving the elements whose descriptions end in them. -/
def read (s : Stand) : Bytes → Except ReadFault (List Element × Stand)
  | [] => .ok ([], s)
  | b :: rest =>
    match s.step b with
    | .error fault => .error fault
    | .ok (element, next) =>
      (next.read rest).map fun (elements, last) => (element.toList ++ elements, last)

/-- What the rest of a document gives. -/
def reading (s : Stand) (rest : Bytes) : Reading :=
  let tokens := Token.scanFrom s.mode rest
  let events := Event.ofTokens tokens.fault s.around tokens.items
  Reading.ofEvents events.fault s.reader events.items

theorem reading_start (document : Bytes) :
    start.reading (Markup.dropByteOrderMark document) = Reading.ofBytes document :=
  rfl

variable {s t u : Stand}

private theorem reading_cons {b : UInt8} {rest : Bytes} {element : Option Element}
    (stepped : s.step b = .ok (element, t)) :
    s.reading (b :: rest) = (t.reading rest).put? element := by
  obtain ⟨mode, around, reader⟩ := s
  unfold step at stepped
  simp only [reading, Token.scanFrom]
  cases ended : Token.step mode b with
  | error fault => rw [ended] at stepped; cases stepped
  | ok outcome =>
    obtain ⟨token, next⟩ := outcome
    rw [ended] at stepped
    cases token with
    | none =>
      obtain ⟨rfl, rfl⟩ := Prod.mk.inj (Except.ok.inj stepped)
      rfl
    | some token =>
      simp only [take] at stepped
      simp only [Markup.Sequence.put?, Event.ofTokens]
      cases met : Event.ofToken around token with
      | error fault => rw [met] at stepped; cases stepped
      | ok outcome =>
        obtain ⟨event, inner⟩ := outcome
        simp only [met] at stepped
        simp only [Reading.ofEvents]
        cases taken : reader.step event with
        | error fault => rw [taken] at stepped; cases stepped
        | ok outcome =>
          rw [taken] at stepped
          obtain ⟨rfl, rfl⟩ := Prod.mk.inj (Except.ok.inj stepped)
          rfl

/-- The elements that were given before a place stand in front of those behind it. -/
def after (elements : List Element) (reading : Reading) : Reading :=
  { reading with elements := elements ++ reading.elements }

private theorem exists_of_read_cons {b : UInt8} {rest : Bytes} {elements : List Element}
    (reads : s.read (b :: rest) = .ok (elements, t)) :
    ∃ element next others, s.step b = .ok (element, next) ∧ next.read rest = .ok (others, t) ∧
      elements = element.toList ++ others := by
  rw [read] at reads
  cases stepped : s.step b with
  | error fault => rw [stepped] at reads; cases reads
  | ok outcome =>
    obtain ⟨element, next⟩ := outcome
    simp only [stepped] at reads
    cases later : next.read rest with
    | error fault => rw [later] at reads; cases reads
    | ok outcome =>
      rw [later] at reads
      obtain ⟨rfl, rfl⟩ := Prod.mk.inj (Except.ok.inj reads)
      exact ⟨element, next, _, rfl, later, rfl⟩

theorem reading_append {front rest : Bytes} {elements : List Element}
    (reads : s.read front = .ok (elements, t)) :
    s.reading (front ++ rest) = after elements (t.reading rest) := by
  induction front generalizing s elements with
  | nil =>
    obtain ⟨rfl, rfl⟩ := Prod.mk.inj (Except.ok.inj reads)
    rfl
  | cons b front ih =>
    obtain ⟨element, next, others, stepped, later, rfl⟩ := exists_of_read_cons reads
    rw [List.cons_append, reading_cons stepped, ih later, Reading.put?, after, after,
      List.append_assoc]

theorem read_append {front rest : Bytes} {elements more : List Element}
    (first : s.read front = .ok (elements, t)) (second : t.read rest = .ok (more, u)) :
    s.read (front ++ rest) = .ok (elements ++ more, u) := by
  induction front generalizing s elements with
  | nil =>
    obtain ⟨rfl, rfl⟩ := Prod.mk.inj (Except.ok.inj first)
    exact second
  | cons b front ih =>
    obtain ⟨element, next, others, stepped, later, rfl⟩ := exists_of_read_cons first
    simp only [List.cons_append, read, stepped, ih later, Except.map, List.append_assoc]

theorem read_passes {mode : Token.Mode} {bytes : Bytes} (passes : Token.Passes s.mode bytes mode) :
    s.read bytes = .ok ([], { s with mode }) := by
  obtain ⟨start, around, reader⟩ := s
  dsimp only at passes
  induction passes with
  | nil => rfl
  | cons first _ ih => simp [read, step, first, take, ih, Except.map]

theorem read_token {start mode next : Token.Mode} {bytes : Bytes} {b : UInt8} {token : Token}
    {event : Event} {outer inner : List Event.OpenElement} {element : Option Element}
    {reader reader' : Reader} (passes : Token.Passes start bytes mode)
    (ends : Token.step mode b = .ok (some token, next))
    (met : Event.ofToken outer token = .ok (event, inner))
    (taken : reader.step event = .ok (element, reader')) :
    (⟨start, outer, reader⟩ : Stand).read (bytes ++ [b]) =
      .ok (element.toList, ⟨next, inner, reader'⟩) := by
  have passed : (⟨start, outer, reader⟩ : Stand).read bytes = .ok ([], ⟨mode, outer, reader⟩) :=
    read_passes passes
  refine read_append passed ?_
  simp only [read, step, ends, take, met, taken, Except.map, List.append_nil]
  rfl

end Stand

end ContentImport.Ontology
