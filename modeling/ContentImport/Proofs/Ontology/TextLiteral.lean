import ContentImport.Proofs.Markup.TextContent
import ContentImport.Proofs.Ontology.XmlLiteral

/-!
Text as a value. The content of a property that nests no element is read to its end tag, run by run
and piece by piece, and the value is what is left of its text.
-/

set_option autoImplicit false
set_option relaxedAutoImplicit false

namespace ContentImport.Ontology

open ContentImport.Text (isMarkupBlank)
open ContentImport.Markup (Bytes Content Event IsTag Piece Segment Token ascii byte isBlank tagName
  trimRun)

private theorem Reader.literalOf_text {base : Option String} {tag : OpenTag} {shape : Literal}
    (made : Reader.literalOf base tag [] = .ok shape) (text : List Char) :
    Reader.literalOf base tag text = .ok { shape with value := String.ofList text } := by
  rw [Reader.literalOf] at made ⊢
  cases named : tag.attribute? (rdf ++ "datatype") with
  | none =>
    rw [named] at made
    obtain rfl := Except.ok.inj made
    rfl
  | some name =>
    simp only [named] at made ⊢
    obtain ⟨datatype, found, rest⟩ := Attempt.bind_eq_ok.mp made
    obtain rfl := Except.ok.inj rest
    exact Attempt.bind_eq_ok.mpr ⟨datatype, found, rfl⟩

namespace Stand

variable {r : Reader} {around : List Event.OpenElement} {e : Element} {p : OpenProperty}

def textReader (r : Reader) (e : Element) (p : OpenProperty) (text : List Char) : Reader :=
  { r with place := .property e p text false }

private theorem read_textRun {run : Bytes} (plain : byte '<' ∉ run) {text more : List Char}
    (decoded : Markup.Reference.decode r.entities (trimRun run) = .ok more) :
    (⟨.between, around, textReader r e p text⟩ : Stand).read (run ++ ascii "<") =
      .ok ([], ⟨.opened, around, textReader r e p (text ++ more)⟩) := by
  obtain ⟨mode, passes, ends⟩ := Token.run_passes plain
  by_cases empty : trimRun run = []
  · rw [empty] at decoded
    obtain rfl : [] = more := Except.ok.inj decoded
    rw [if_pos empty] at ends
    rw [List.append_nil]
    exact read_passes (passes.append (.single ends))
  · rw [if_neg empty] at ends
    have signal : Signal.ofEvent r.entities (.text (trimRun run)) = .ok (.text more) := by
      rw [Signal.ofEvent, decoded]
      rfl
    have taken : (textReader r e p text).step (.text (trimRun run)) =
        .ok (none, textReader r e p (text ++ more)) := by
      simp only [Reader.step, textReader, signal]
      rfl
    exact read_token passes ends rfl taken

private theorem read_inline {piece : Piece} (formed : piece.WellFormed) (inline : piece.IsInline)
    (text : List Char) :
    (⟨.opened, around, textReader r e p text⟩ : Stand).read (piece.inner ++ [byte '>']) =
      .ok ([], ⟨.between, around, textReader r e p (text ++ piece.text)⟩) := by
  obtain ⟨mode, passes, ends⟩ := piece.passes formed
  obtain ⟨event, met, taken⟩ : ∃ event, Event.ofToken around piece.token = .ok (event, around) ∧
      (textReader r e p text).step event = .ok (none, textReader r e p (text ++ piece.text)) := by
    cases piece with
    | opened | whole | closed => exact inline.elim
    | characterData content => exact ⟨.characterData content, rfl, rfl⟩
    | comment content =>
      have same : text ++ (Piece.comment content).text = text := List.append_nil text
      exact ⟨.comment content, rfl, by rw [same]; rfl⟩
    | instruction content =>
      have same : text ++ (Piece.instruction content).text = text := List.append_nil text
      exact ⟨.instruction content, rfl, by rw [same]; rfl⟩
  exact read_token passes ends met taken

private theorem read_textStretches {stretches : List (Bytes × Piece)}
    (plain : ∀ stretch ∈ stretches, byte '<' ∉ stretch.1)
    (formed : ∀ stretch ∈ stretches, stretch.2.WellFormed)
    (inline : ∀ stretch ∈ stretches, stretch.2.IsInline) (text : List Char)
    {texts : List (List Char)}
    (decoded : (stretches.flatMap fun stretch => [.run stretch.1, .markup stretch.2]).mapM
      (Segment.keptText r.entities) = .ok texts) :
    (⟨.between, around, textReader r e p text⟩ : Stand).read
        (stretches.flatMap fun stretch => stretch.1 ++ stretch.2.source) =
      .ok ([], ⟨.between, around, textReader r e p (text ++ texts.flatten)⟩) := by
  induction stretches generalizing text texts with
  | nil =>
    obtain rfl : [] = texts := Except.ok.inj decoded
    rw [List.flatten_nil, List.append_nil]
    rfl
  | cons stretch stretches ih =>
    obtain ⟨plainRun, plainRest⟩ := List.forall_mem_cons.mp plain
    obtain ⟨formedPiece, formedRest⟩ := List.forall_mem_cons.mp formed
    obtain ⟨inlinePiece, inlineRest⟩ := List.forall_mem_cons.mp inline
    have each := Attempt.mapM_eq_ok.mp decoded
    rw [List.flatMap_cons] at each
    obtain _ | ⟨readRun, _ | ⟨readPiece, others⟩⟩ := each
    next more pieceText rest =>
    obtain rfl : stretch.2.text = pieceText := Except.ok.inj readPiece
    have run : (⟨.between, around, textReader r e p text⟩ : Stand).read (stretch.1 ++ ascii "<") =
        _ := read_textRun plainRun readRun
    have piece : (⟨.opened, around, textReader r e p (text ++ more)⟩ : Stand).read
        (stretch.2.inner ++ [byte '>']) = _ := read_inline formedPiece inlinePiece _
    have later := ih plainRest formedRest inlineRest (text ++ more ++ stretch.2.text)
      (Attempt.mapM_eq_ok.mpr others)
    have source : stretch.1 ++ stretch.2.source =
        stretch.1 ++ ascii "<" ++ (stretch.2.inner ++ [byte '>']) := by
      simp [Piece.source, ascii]
    rw [List.flatMap_cons, source, read_append (read_append run piece) later]
    simp

def pushText (r : Reader) (e : Element) (predicate : Iri) (shape : Literal) (text : List Char) :
    Reader :=
  { r with place :=
      .description (e.push predicate (.literal { shape with value := String.ofList text })) }

private theorem read_textContent {content : Content} (formed : content.WellFormed)
    (inline : ∀ stretch ∈ content.stretches, stretch.2.IsInline) {kept : List Char}
    (decoded : content.keptText r.entities = .ok kept) {blanks : Bytes}
    {element : Event.OpenElement} (closes : (Piece.closed element.name blanks).WellFormed)
    (untyped : p.tag.attribute? (rdf ++ "parseType") = none) {shape : Literal}
    (made : Reader.literalOf r.base p.tag [] = .ok shape) :
    (⟨.between, element :: around, textReader r e p []⟩ : Stand).read
        (content.source ++ (Piece.closed element.name blanks).source) =
      .ok ([], ⟨.between, around, pushText r e p.predicate shape kept⟩) := by
  obtain ⟨texts, each, rfl⟩ := Attempt.map_eq_ok.mp decoded
  rw [Content.segments, List.mapM_append] at each
  obtain ⟨front, decodedFront, rest⟩ := Attempt.bind_eq_ok.mp each
  obtain ⟨back, decodedBack, joined⟩ := Attempt.bind_eq_ok.mp rest
  obtain rfl := Except.ok.inj joined
  obtain _ | ⟨decodedLast, _ | _⟩ := Attempt.mapM_eq_ok.mp decodedBack
  next last =>
  have stretches : (⟨.between, element :: around, textReader r e p []⟩ : Stand).read
      (content.stretches.flatMap fun stretch => stretch.1 ++ stretch.2.source) = _ :=
    read_textStretches formed.runs formed.pieces inline [] decodedFront
  have ended : r.endProperty e p (front ++ [last]).flatten false =
      .ok (pushText r e p.predicate shape (front ++ [last]).flatten) := by
    rw [Reader.endProperty, untyped, Reader.literalOf_text made]
    rfl
  have taken : (textReader r e p ([] ++ front.flatten ++ last)).step (.closed element.name) =
      .ok (none, pushText r e p.predicate shape (front ++ [last]).flatten) := by
    have same : [] ++ front.flatten ++ last = (front ++ [last]).flatten := by simp
    rw [same]
    exact congrArg (Except.map (none, ·)) ended
  exact read_toEnd closes stretches (read_textRun formed.last decodedLast) taken

/-- Behind the opening bracket of its start tag, a property of a description begins whose content
may be text. -/
structure BeginsText (s : Stand) (tag : Bytes) (opened : Markup.Tag) (property : OpenTag)
    (e : Element) (predicate : Iri) (shape : Literal) : Prop where
  mode : s.mode = .opened
  place : s.reader.place = .description e
  formed : (Piece.opened tag).WellFormed
  entered : Event.enterTag s.around tag = .ok opened
  decoded : OpenTag.ofTag s.reader.entities opened = .ok property
  predicate : Reader.nameIri property.name = .ok predicate
  resource : property.attribute? (rdf ++ "resource") = none
  nodeId : property.attribute? (rdf ++ "nodeID") = none
  parseType : property.attribute? (rdf ++ "parseType") = none
  /-- The literal with no text yet. -/
  shape : Reader.literalOf s.reader.base property [] = .ok shape

variable {s : Stand} {tag : Bytes} {opened : Markup.Tag} {property : OpenTag} {predicate : Iri}
  {shape : Literal}

namespace BeginsText

private theorem beginProperty (begins : s.BeginsText tag opened property e predicate shape) :
    s.reader.beginProperty e property false =
      .ok (textReader s.reader e ⟨predicate, property⟩ []) := by
  simp only [Reader.beginProperty, begins.predicate, begins.resource, begins.nodeId,
    begins.parseType]
  rfl

private theorem read_startTag (begins : s.BeginsText tag opened property e predicate shape) :
    s.read (tag ++ ascii ">") = .ok ([], ⟨.between, opened :: s.around,
      textReader s.reader e ⟨predicate, property⟩ []⟩) :=
  read_propertyTag begins.mode begins.place begins.formed begins.entered begins.decoded
    begins.beginProperty

private theorem read_property (begins : s.BeginsText tag opened property e predicate shape)
    {content : Content} (formed : content.WellFormed)
    (inline : ∀ stretch ∈ content.stretches, stretch.2.IsInline) {kept : List Char}
    (decoded : content.keptText s.reader.entities = .ok kept) {blanks : Bytes}
    (blank : ∀ b ∈ blanks, isBlank b = true) :
    s.read (tag ++ ascii ">" ++ (content.source ++ (Piece.closed (tagName tag) blanks).source)) =
      .ok ([], ⟨.between, s.around, pushText s.reader e predicate shape kept⟩) := by
  have named := name_of_enterTag begins.entered
  have closes : (Piece.closed opened.name blanks).WellFormed := by
    rw [named]
    exact ⟨begins.formed.2.1, blank⟩
  rw [← named]
  exact read_append begins.read_startTag
    (read_textContent formed inline decoded closes begins.parseType begins.shape)

end BeginsText

end Stand

/-- The value of a property whose content nests no element is what is left of its text, wherever in
a document it stands. It has all of the text that is no white space; it has the text between the
first and the last of that as it is where the white space that is lost has text on one of its sides
at most, and only there. -/
theorem Reading.ofBytes_text {document before after tag blanks : Bytes} {content : Content}
    {elements : List Element} {s : Stand} {opened : Markup.Tag} {property : OpenTag} {e : Element}
    {predicate : Iri} {shape : Literal} {whole : List Char}
    (stood : Stand.start.read before = .ok (elements, s))
    (begins : s.BeginsText tag opened property e predicate shape) (formed : content.WellFormed)
    (inline : ∀ stretch ∈ content.stretches, stretch.2.IsInline)
    (decoded : content.text s.reader.entities = .ok whole) (blank : ∀ b ∈ blanks, isBlank b = true)
    (written : Markup.dropByteOrderMark document = before ++ (tag ++ ascii ">" ++
      (content.source ++ (Piece.closed (tagName tag) blanks).source)) ++ after) :
    ∃ kept, content.keptText s.reader.entities = .ok kept ∧
      Reading.ofBytes document = Stand.after elements
        ((⟨.between, s.around, Stand.pushText s.reader e predicate shape kept⟩ :
          Stand).reading after) ∧
      kept.filter (!isMarkupBlank ·) = whole.filter (!isMarkupBlank ·) ∧
      (Text.trimBy isMarkupBlank kept = Text.trimBy isMarkupBlank whole ↔
        content.LosesOutside s.reader.entities) := by
  obtain ⟨kept, left, ink, core⟩ := Content.exists_keptText decoded
  have read := Stand.read_append stood (begins.read_property formed inline left blank)
  refine ⟨kept, left, ?_, ink, core⟩
  rw [← Stand.reading_start, written, Stand.reading_append read, List.append_nil]

/-- A greeting with a comment between its words. -/
def remarkedGreeting : Content :=
  ⟨[(ascii "Hello ", .comment (ascii " sic "))], ascii "world"⟩

theorem Reading.ofBytes_text_remarkedGreeting :
    let before := ascii ("<r:Description xmlns:r='" ++ rdf ++ "' xmlns:d='e:'><")
    let document := before ++ ascii "d:content>Hello <!-- sic -->world</d:content></r:Description>"
    (Reading.ofBytes document).elements =
        [(Element.empty none).push greetingContent (.literal (.plain "Helloworld"))] ∧
      remarkedGreeting.text [] = .ok "Hello world".toList ∧
      ¬ remarkedGreeting.LosesOutside [] := by
  intro before document
  have tag : (Piece.opened (ascii "d:content")).WellFormed :=
    ⟨.of_unbound (by decide +kernel) (by decide +kernel) (by decide +kernel), by decide +kernel,
      by decide +kernel⟩
  have formed : remarkedGreeting.WellFormed :=
    { runs := by decide +kernel
      last := by decide +kernel
      pieces := by
        intro stretch member
        obtain rfl := List.mem_singleton.mp member
        have apart : ¬ ascii "-->" <:+: ascii " sic " := by decide +kernel
        exact apart
      balanced := by decide +kernel }
  have inline : ∀ stretch ∈ remarkedGreeting.stretches, stretch.2.IsInline := by
    intro stretch member
    obtain rfl := List.mem_singleton.mp member
    exact trivial
  have stood : Stand.start.read before = .ok ([], greetingStand) := by decide +kernel
  have begins : greetingStand.BeginsText (ascii "d:content")
      ⟨ascii "d:content", Event.scopeOf greetingStand.around⟩ ⟨"e:content", []⟩ (.empty none)
      greetingContent (.plain "") :=
    { mode := rfl
      place := rfl
      formed := tag
      entered := by decide +kernel
      decoded := by decide +kernel
      predicate := by decide +kernel
      resource := by decide +kernel
      nodeId := by decide +kernel
      parseType := by decide +kernel
      shape := by decide +kernel }
  have decoded : remarkedGreeting.text greetingStand.reader.entities =
      .ok "Hello world".toList := by
    decide +kernel
  have written : Markup.dropByteOrderMark document =
      before ++ (ascii "d:content" ++ ascii ">" ++ (remarkedGreeting.source ++
        (Piece.closed (tagName (ascii "d:content")) []).source)) ++ ascii "</r:Description>" := by
    decide +kernel
  obtain ⟨kept, left, read, -, core⟩ :=
    Reading.ofBytes_text stood begins formed inline decoded (by simp) written
  obtain rfl : "Helloworld".toList = kept := by
    have joined : remarkedGreeting.keptText greetingStand.reader.entities =
        .ok "Helloworld".toList := by
      decide +kernel
    exact Except.ok.inj (joined.symm.trans left)
  refine ⟨?_, decoded, ?_⟩
  · rw [read]
    decide +kernel
  · exact fun outside => absurd (core.mpr outside) (by decide +kernel)

end ContentImport.Ontology
