import ContentImport.Proofs.Ontology.Stand
import ContentImport.Proofs.Text.Decoding

/-!
Markup as a value. The content of a property whose content is a literal is read to its end tag,
whatever elements nest in it, and written again; the value is the content as it is written but for
the white space that touches markup.
-/

set_option autoImplicit false
set_option relaxedAutoImplicit false

namespace ContentImport.Ontology

open ContentImport.Markup (Bytes Content Event IsName IsTag Piece Token ascii byte isBlank tagName
  trimRun)

/-! ## Events -/

private theorem endName_append {name blanks : Bytes} (named : IsName name)
    (blank : ∀ b ∈ blanks, isBlank b = true) : Event.endName (name ++ blanks) = name := by
  obtain ⟨front, last, rfl⟩ := (List.eq_nil_or_concat' name).resolve_left named.1
  have ink : isBlank last = false := (named.2 last (by simp)).1
  have read : (front ++ [last] ++ blanks).reverse.dropWhile isBlank = last :: front.reverse := by
    rw [List.reverse_append, List.dropWhile_append_of_pos (by simpa using blank)]
    simp [ink]
  rw [Event.endName, read]
  simp

private theorem enterTag_ok {tag : Bytes} (formed : IsTag tag) (around : List Event.OpenElement) :
    ∃ scope, Event.enterTag around tag = .ok ⟨tag, scope⟩ := by
  obtain ⟨scope, entered⟩ := formed.bound (Event.scopeOf around)
  refine ⟨scope, ?_⟩
  rw [Event.enterTag, Markup.Tag.rest, entered]
  rfl

theorem name_of_enterTag {around : List Event.OpenElement} {tag : Bytes} {opened : Markup.Tag}
    (entered : Event.enterTag around tag = .ok opened) : opened.name = tagName tag := by
  rw [Event.enterTag] at entered
  generalize Markup.Scope.enter _ _ = scope at entered
  cases scope with
  | error fault => cases entered
  | ok scope =>
    obtain rfl := Except.ok.inj entered
    rfl

namespace Stand

variable {r : Reader} {around : List Event.OpenElement} {e : Element} {predicate : Iri}

/-- The reader within markup that is a value, inside a number of elements. -/
def markupReader (r : Reader) (e : Element) (predicate : Iri) (written : Bytes) (depth : Nat) :
    Reader :=
  { r with place := .markup e predicate written depth }

private theorem read_markup {outer inner : List Event.OpenElement} {written bytes : Bytes}
    {depth depth' : Nat} {start mode next : Token.Mode} {b : UInt8} {token : Token} {event : Event}
    (passes : Token.Passes start bytes mode) (ends : Token.step mode b = .ok (some token, next))
    (met : Event.ofToken outer token = .ok (event, inner))
    (taken : (markupReader r e predicate written depth).takeMarkup e predicate written depth event =
      markupReader r e predicate (written ++ event.written) depth') :
    (⟨start, outer, markupReader r e predicate written depth⟩ : Stand).read (bytes ++ [b]) =
      .ok ([], ⟨next, inner, markupReader r e predicate (written ++ event.written) depth'⟩) := by
  have stepped : (markupReader r e predicate written depth).step event =
      .ok (none, markupReader r e predicate (written ++ event.written) depth') :=
    congrArg (fun reader => Except.ok (none, reader)) taken
  exact read_token passes ends met stepped

private theorem read_run {outer : List Event.OpenElement} {written run : Bytes} {depth : Nat}
    (plain : byte '<' ∉ run) :
    (⟨.between, outer, markupReader r e predicate written depth⟩ : Stand).read (run ++ ascii "<") =
      .ok ([], ⟨.opened, outer, markupReader r e predicate (written ++ trimRun run) depth⟩) := by
  obtain ⟨mode, passes, ends⟩ := Token.run_passes plain
  by_cases empty : trimRun run = []
  · rw [if_pos empty] at ends
    rw [empty, List.append_nil]
    exact read_passes (passes.append (.single ends))
  · rw [if_neg empty] at ends
    exact read_markup passes ends rfl rfl

variable (r around e predicate) in
private theorem exists_event {p : Piece} (formed : p.WellFormed) {stack : List Event.OpenElement}
    {names : List Bytes} (nested : p.nest (stack.map (·.name)) = some names) :
    ∃ event stack', Event.ofToken (stack ++ around) p.token = .ok (event, stack' ++ around) ∧
      stack'.map (·.name) = names ∧ event.written = p.kept ∧
      ∀ written, (markupReader r e predicate written stack.length).takeMarkup e predicate written
          stack.length event =
        markupReader r e predicate (written ++ event.written) stack'.length := by
  cases p with
  | opened tag =>
    obtain ⟨scope, entered⟩ := enterTag_ok formed.1 (stack ++ around)
    refine ⟨.opened ⟨tag, scope⟩, ⟨tag, scope⟩ :: stack, ?_, Option.some.inj nested, rfl, ?_⟩
    · rw [Piece.token, Event.ofToken, formed.2.2]
      simp only [entered, Except.map, List.cons_append]
    · exact fun _ => rfl
  | whole tag =>
    obtain ⟨scope, entered⟩ := enterTag_ok formed (stack ++ around)
    have slash : Event.withoutSlash? (tag ++ ascii "/") = some tag := by
      have last : (tag ++ ascii "/").getLast? = some (byte '/') := List.getLast?_concat
      rw [Event.withoutSlash?, if_pos last]
      exact congrArg some List.dropLast_concat
    refine ⟨.whole ⟨tag, scope⟩, stack, ?_, Option.some.inj nested, ?_, fun _ => rfl⟩
    · rw [Piece.token, Event.ofToken, slash]
      simp only [entered, Except.map]
    · simp [Event.written, Piece.kept, Piece.source, Piece.inner, ascii]
  | closed name blanks =>
    rw [Piece.nest] at nested
    split at nested
    · next innermost =>
      obtain ⟨element, outer, rfl, rfl⟩ :
          ∃ element outer, stack = element :: outer ∧ element.name = name := by
        cases stack with
        | nil => cases innermost
        | cons element outer => exact ⟨element, outer, rfl, Option.some.inj innermost⟩
      refine ⟨.closed element.name, outer, ?_, Option.some.inj nested, ?_, fun _ => rfl⟩
      · simp only [Piece.token, List.cons_append, Event.ofToken, endName_append formed.1 formed.2,
          if_pos]
      · simp [Event.written, Piece.kept, Piece.source, Piece.inner, ascii]
    · cases nested
  | characterData content =>
    refine ⟨.characterData content, stack, rfl, Option.some.inj nested, ?_, fun _ => rfl⟩
    simp [Event.written, Piece.kept, Piece.source, Piece.inner, ascii]
  | comment content =>
    refine ⟨.comment content, stack, rfl, Option.some.inj nested, ?_, fun _ => rfl⟩
    simp [Event.written, Piece.kept, Piece.source, Piece.inner, ascii]
  | instruction content =>
    refine ⟨.instruction content, stack, rfl, Option.some.inj nested, ?_, fun _ => rfl⟩
    simp [Event.written, Piece.kept, Piece.source, Piece.inner, ascii]

private theorem read_stretches {stretches : List (Bytes × Piece)}
    (plain : ∀ stretch ∈ stretches, byte '<' ∉ stretch.1)
    (formed : ∀ stretch ∈ stretches, stretch.2.WellFormed) (stack : List Event.OpenElement)
    (balanced : (stretches.map (·.2)).foldlM Piece.nest (stack.map (·.name)) = some [])
    (written : Bytes) :
    (⟨.between, stack ++ around, markupReader r e predicate written stack.length⟩ : Stand).read
        (stretches.flatMap fun stretch => stretch.1 ++ stretch.2.source) =
      .ok ([], ⟨.between, around, markupReader r e predicate
        (written ++ stretches.flatMap fun stretch => trimRun stretch.1 ++ stretch.2.kept) 0⟩) := by
  induction stretches generalizing stack written with
  | nil =>
    obtain rfl : stack = [] := List.map_eq_nil_iff.mp (Option.some.inj balanced)
    rw [List.flatMap_nil, List.flatMap_nil, List.append_nil]
    rfl
  | cons stretch stretches ih =>
    obtain ⟨plainRun, plainRest⟩ := List.forall_mem_cons.mp plain
    obtain ⟨formedPiece, formedRest⟩ := List.forall_mem_cons.mp formed
    rw [List.map_cons, List.foldlM_cons] at balanced
    obtain ⟨names, nested, balancedRest⟩ := Option.bind_eq_some_iff.mp balanced
    obtain ⟨event, inner, met, rfl, kept, taken⟩ :=
      exists_event r around e predicate formedPiece nested
    obtain ⟨mode, passes, ends⟩ := stretch.2.passes formedPiece
    have run : (⟨.between, stack ++ around, markupReader r e predicate written stack.length⟩ :
        Stand).read (stretch.1 ++ ascii "<") = _ := read_run plainRun
    have piece := read_markup passes ends met (taken (written ++ trimRun stretch.1))
    have rest := ih plainRest formedRest inner balancedRest
      (written ++ trimRun stretch.1 ++ event.written)
    have whole := read_append (read_append run piece) rest
    have source : stretch.1 ++ stretch.2.source =
        stretch.1 ++ ascii "<" ++ (stretch.2.inner ++ [byte '>']) := by
      simp [Piece.source, ascii]
    rw [List.flatMap_cons, List.flatMap_cons, source, whole, kept]
    simp only [List.append_assoc, List.append_nil]

def markupLiteral (written : Bytes) : Literal :=
  ⟨String.ofList (Text.Utf8.decodeLenient written), some rdfXmlLiteral, none⟩

/-- Content is read to the end tag of the element that it is in: its stretches, its last run, and the
end tag. -/
theorem read_toEnd {content : Content} {blanks : Bytes} {element : Event.OpenElement}
    (closes : (Piece.closed element.name blanks).WellFormed) {first second third last : Reader}
    (stretches : (⟨.between, element :: around, first⟩ : Stand).read
        (content.stretches.flatMap fun stretch => stretch.1 ++ stretch.2.source) =
      .ok ([], ⟨.between, element :: around, second⟩))
    (run : (⟨.between, element :: around, second⟩ : Stand).read (content.last ++ ascii "<") =
      .ok ([], ⟨.opened, element :: around, third⟩))
    (taken : third.step (.closed element.name) = .ok (none, last)) :
    (⟨.between, element :: around, first⟩ : Stand).read
        (content.source ++ (Piece.closed element.name blanks).source) =
      .ok ([], ⟨.between, around, last⟩) := by
  obtain ⟨mode, passes, ends⟩ := Piece.passes closes
  have met : Event.ofToken (element :: around) (.endTag (element.name ++ blanks)) =
      .ok (.closed element.name, around) := by
    rw [Event.ofToken, endName_append closes.1 closes.2, if_pos rfl]
  have whole := read_append (read_append stretches run) (read_token passes ends met taken)
  have source : content.source ++ (Piece.closed element.name blanks).source =
      (content.stretches.flatMap fun stretch => stretch.1 ++ stretch.2.source) ++
        (content.last ++ ascii "<") ++
          ((Piece.closed element.name blanks).inner ++ [byte '>']) := by
    simp [Content.source, Piece.source, ascii]
  rw [source, whole]
  rfl

private theorem read_content {content : Content} (formed : content.WellFormed) {blanks : Bytes}
    {element : Event.OpenElement} (closes : (Piece.closed element.name blanks).WellFormed) :
    (⟨.between, element :: around, markupReader r e predicate [] 0⟩ : Stand).read
        (content.source ++ (Piece.closed element.name blanks).source) =
      .ok ([], ⟨.between, around, { r with
        place := .description (e.push predicate (.literal (markupLiteral content.kept))) }⟩) := by
  have stretches : (⟨.between, element :: around, markupReader r e predicate [] 0⟩ : Stand).read
      (content.stretches.flatMap fun stretch => stretch.1 ++ stretch.2.source) = _ :=
    read_stretches formed.runs formed.pieces [] formed.balanced []
  have taken : (markupReader r e predicate content.kept 0).step (.closed element.name) =
      .ok (none, { r with
        place := .description (e.push predicate (.literal (markupLiteral content.kept))) }) := rfl
  exact read_toEnd closes stretches (read_run formed.last) taken

theorem read_propertyTag {s : Stand} {tag : Bytes} {opened : Markup.Tag} {property : OpenTag}
    (mode : s.mode = .opened) (place : s.reader.place = .description e)
    (formed : (Piece.opened tag).WellFormed) (entered : Event.enterTag s.around tag = .ok opened)
    (decoded : OpenTag.ofTag s.reader.entities opened = .ok property) {reader : Reader}
    (begun : s.reader.beginProperty e property false = .ok reader) :
    s.read (tag ++ ascii ">") = .ok ([], ⟨.between, opened :: s.around, reader⟩) := by
  obtain ⟨start, around, standing, base, bare, entities, notices⟩ := s
  dsimp only at mode place entered decoded begun
  subst mode place
  obtain ⟨last, passes, ends⟩ := (Piece.opened tag).passes formed
  have met : Event.ofToken around (.startTag tag) = .ok (.opened opened, opened :: around) := by
    rw [Event.ofToken, formed.2.2]
    simp only [entered, Except.map]
  have taken : (⟨.description e, base, bare, entities, notices⟩ : Reader).step (.opened opened) =
      .ok (none, reader) := by
    have signal : Signal.ofEvent entities (.opened opened) = .ok (.opened property) := by
      rw [Signal.ofEvent, decoded]
      rfl
    simp only [Reader.step, signal]
    exact congrArg (Except.map (none, ·)) begun
  exact read_token passes ends met taken

/-- Behind the opening bracket of its start tag, a property of a description begins whose content is
a literal. -/
structure BeginsLiteral (s : Stand) (tag : Bytes) (opened : Markup.Tag) (property : OpenTag)
    (e : Element) (predicate : Iri) : Prop where
  mode : s.mode = .opened
  place : s.reader.place = .description e
  formed : (Piece.opened tag).WellFormed
  entered : Event.enterTag s.around tag = .ok opened
  decoded : OpenTag.ofTag s.reader.entities opened = .ok property
  predicate : Reader.nameIri property.name = .ok predicate
  resource : property.attribute? (rdf ++ "resource") = none
  nodeId : property.attribute? (rdf ++ "nodeID") = none
  parseType : property.attribute? (rdf ++ "parseType") = some "Literal"

variable {s : Stand} {tag : Bytes} {opened : Markup.Tag} {property : OpenTag}

namespace BeginsLiteral

private theorem beginProperty (begins : s.BeginsLiteral tag opened property e predicate) :
    s.reader.beginProperty e property false = .ok (markupReader s.reader e predicate [] 0) := by
  simp only [Reader.beginProperty, begins.predicate, begins.resource, begins.nodeId,
    begins.parseType]
  rfl

private theorem read_startTag (begins : s.BeginsLiteral tag opened property e predicate) :
    s.read (tag ++ ascii ">") =
      .ok ([], ⟨.between, opened :: s.around, markupReader s.reader e predicate [] 0⟩) :=
  read_propertyTag begins.mode begins.place begins.formed begins.entered begins.decoded
    begins.beginProperty

private theorem read_property (begins : s.BeginsLiteral tag opened property e predicate)
    {content : Content}
    (formed : content.WellFormed) {blanks : Bytes} (blank : ∀ b ∈ blanks, isBlank b = true) :
    s.read (tag ++ ascii ">" ++ (content.source ++ (Piece.closed (tagName tag) blanks).source)) =
      .ok ([], ⟨.between, s.around, { s.reader with
        place := .description (e.push predicate (.literal (markupLiteral content.kept))) }⟩) := by
  have named := name_of_enterTag begins.entered
  have closes : (Piece.closed opened.name blanks).WellFormed := by
    rw [named]
    exact ⟨begins.formed.2.1, blank⟩
  rw [← named]
  exact read_append begins.read_startTag (read_content formed closes)

end BeginsLiteral

end Stand

/-- The literal of a property is what is kept of its content, wherever in a document it stands. It
is the content as it is written where white space touches no piece of markup, and only there. -/
theorem Reading.ofBytes_literal {document before after tag blanks : Bytes} {content : Content}
    {elements : List Element} {s : Stand} {opened : Markup.Tag} {property : OpenTag} {e : Element}
    {predicate : Iri} (stood : Stand.start.read before = .ok (elements, s))
    (begins : s.BeginsLiteral tag opened property e predicate) (formed : content.WellFormed)
    (blank : ∀ b ∈ blanks, isBlank b = true)
    (written : Markup.dropByteOrderMark document = before ++ (tag ++ ascii ">" ++
      (content.source ++ (Piece.closed (tagName tag) blanks).source)) ++ after) :
    Reading.ofBytes document = Stand.after elements
        ((⟨.between, s.around, { s.reader with
          place :=
            .description (e.push predicate (.literal (Stand.markupLiteral content.kept))) }⟩ :
              Stand).reading after) ∧
      ((Stand.markupLiteral content.kept).value =
        String.ofList (Text.Utf8.decodeLenient content.source) ↔ content.Tight) := by
  constructor
  · have read := Stand.read_append stood (begins.read_property formed blank)
    rw [← Stand.reading_start, written, Stand.reading_append read, List.append_nil]
  · have loses := formed.kept_loses
    have same := Text.Utf8.decodeLenient_inj_of_sublist loses.sublist loses.ink
    rw [← formed.kept_eq_source_iff, ← same]
    exact String.ofList_inj

/-- A greeting with a space on either side of an element. -/
def greeting : Content :=
  ⟨[(ascii "Hello ", .opened (ascii "b")), (ascii "big", .closed (ascii "b") [])], ascii " world"⟩

def greetingContent : Iri :=
  ⟨"e:content", by decide +kernel⟩

/-- The stand behind the opening bracket of the first property of a description. -/
def greetingStand : Stand where
  mode := .opened
  around := [⟨ascii ("r:Description xmlns:r='" ++ rdf ++ "' xmlns:d='e:'"),
    ⟨some (ascii "d"), ascii "e:"⟩ :: ⟨some (ascii "r"), ascii rdf⟩ :: Markup.Scope.outermost⟩]
  reader := ⟨.description (.empty none), none, true, [], []⟩

theorem Reading.ofBytes_literal_greeting :
    let before := ascii ("<r:Description xmlns:r='" ++ rdf ++ "' xmlns:d='e:'><")
    let document := before ++ ascii ("d:content r:parseType='Literal'>Hello <b>big</b> world" ++
      "</d:content></r:Description>")
    (Reading.ofBytes document).elements =
        [(Element.empty none).push greetingContent
          (.literal (Stand.markupLiteral greeting.kept))] ∧
      (Stand.markupLiteral greeting.kept).value = "Hello<b>big</b>world" ∧
      (Stand.markupLiteral greeting.kept).value ≠
        String.ofList (Text.Utf8.decodeLenient greeting.source) := by
  intro before document
  have tag : (Piece.opened (ascii "d:content r:parseType='Literal'")).WellFormed :=
    ⟨.of_unbound (by decide +kernel) (by decide +kernel) (by decide +kernel), by decide +kernel,
      by decide +kernel⟩
  have bold : (Piece.opened (ascii "b")).WellFormed :=
    ⟨.of_unbound (by decide +kernel) (by decide +kernel) (by decide +kernel), by decide +kernel,
      by decide +kernel⟩
  have formed : greeting.WellFormed :=
    { runs := by decide +kernel
      last := by decide +kernel
      pieces := by
        intro stretch member
        rcases List.mem_pair.mp member with rfl | rfl
        · exact bold
        · exact ⟨by decide +kernel, by simp⟩
      balanced := by decide +kernel }
  have stood : Stand.start.read before = .ok ([], greetingStand) := by decide +kernel
  have begins : greetingStand.BeginsLiteral (ascii "d:content r:parseType='Literal'")
      ⟨ascii "d:content r:parseType='Literal'", Event.scopeOf greetingStand.around⟩
      ⟨"e:content", [(rdf ++ "parseType", "Literal")]⟩ (.empty none) greetingContent :=
    { mode := rfl
      place := rfl
      formed := tag
      entered := by decide +kernel
      decoded := by decide +kernel
      predicate := by decide +kernel
      resource := by decide +kernel
      nodeId := by decide +kernel
      parseType := by decide +kernel }
  have written : Markup.dropByteOrderMark document =
      before ++ (ascii "d:content r:parseType='Literal'" ++ ascii ">" ++ (greeting.source ++
        (Piece.closed (tagName (ascii "d:content r:parseType='Literal'")) []).source)) ++
          ascii "</r:Description>" := by
    decide +kernel
  obtain ⟨read, tight⟩ := Reading.ofBytes_literal stood begins formed (by simp) written
  refine ⟨?_, by decide +kernel, ?_⟩
  · rw [read]
    decide +kernel
  · rw [ne_eq, tight]
    intro tight
    exact absurd (tight.1 _ List.mem_cons_self).1.2 (by decide +kernel)

end ContentImport.Ontology
