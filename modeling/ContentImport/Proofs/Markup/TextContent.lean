import ContentImport.Proofs.Attempt
import ContentImport.Proofs.Markup.Content
import ContentImport.Proofs.Markup.Replacement
import ContentImport.Proofs.Text.Decoding
import ContentImport.Proofs.Text.Trimming

/-!
Content whose pieces of markup nest no element: its runs of text and its character data are one text,
in which comments and instructions are nothing. Each run is read without the white space at its ends,
so what is left of the text lacks white space beside a piece of markup even where text stands on
both sides of it.
-/

set_option autoImplicit false
set_option relaxedAutoImplicit false

namespace ContentImport.Markup

open Text (IsBlankText isMarkupBlank)
open Text.Utf8 (single)

variable {entities : Entities}

/-! ## Runs -/

def leadingBlanks (run : Bytes) : Bytes :=
  run.takeWhile isBlank

/-- The white space at the end of a run; none where the run is white space alone. -/
def trailingBlanks (run : Bytes) : Bytes :=
  (run.dropWhile isBlank).rtakeWhile isBlank

private theorem run_eq (run : Bytes) : leadingBlanks run ++
    (trimRun run ++ trailingBlanks run) = run := by
  rw [trimRun_eq, trailingBlanks, List.rdropWhile_append_rtakeWhile, leadingBlanks,
    List.takeWhile_append_dropWhile]

private theorem isBlankText_leading (run : Bytes) : IsBlankText (single (leadingBlanks run)) :=
  fun _ => Text.Utf8.isMarkupBlank_of_mem_single fun _ => List.mem_takeWhile_imp

private theorem isBlankText_trailing (run : Bytes) : IsBlankText (single (trailingBlanks run)) :=
  fun _ => Text.Utf8.isMarkupBlank_of_mem_single fun _ => List.mem_rtakeWhile_imp

private theorem ordinary_of_blank {c : Char} (blank : isMarkupBlank c = true) :
    c ≠ '&' ∧ c ≠ ';' := by
  constructor <;> rintro rfl <;> exact absurd blank (by decide)

private theorem decode_run {run : Bytes} {whole : List Char}
    (decoded : Reference.decode entities run = .ok whole) :
    ∃ text, Reference.decode entities (trimRun run) = .ok text ∧
      whole = single (leadingBlanks run) ++ (text ++ single (trailingBlanks run)) := by
  have front : ∀ b ∈ leadingBlanks run, isBlank b = true := fun _ => List.mem_takeWhile_imp
  have back : ∀ b ∈ trailingBlanks run, isBlank b = true := fun _ => List.mem_rtakeWhile_imp
  rw [Reference.decode, ← run_eq run, Text.Utf8.decode?_blanks_around front back] at decoded
  rw [Reference.decode]
  cases read : Text.Utf8.decode? (trimRun run) with
  | none => rw [read] at decoded; cases decoded
  | some s =>
    simp only [read, Option.map_some] at decoded
    have plain : '&' ∉ single (leadingBlanks run) := fun member =>
      (ordinary_of_blank (isBlankText_leading run _ member)).1 rfl
    rw [Reference.expand, Reference.expandFrom_append (Reference.expand_plain plain)] at decoded
    obtain ⟨inner, expanded, rfl⟩ := Attempt.map_eq_ok.mp decoded
    obtain ⟨text, alone, rfl⟩ := Reference.exists_of_expandFrom_append
      (fun c member => ordinary_of_blank (isBlankText_trailing run c member)) expanded
    exact ⟨text, alone, rfl⟩

/-! ## Segments -/

namespace Piece

/-- A piece that belongs to no element. -/
def IsInline : Piece → Prop
  | .characterData _ | .comment _ | .instruction _ => True
  | _ => False

/-- The text that a piece gives: character data as it stands. -/
def text : Piece → List Char
  | .characterData content => Text.Utf8.decodeLenient content
  | _ => []

end Piece

/-- A part of content. -/
inductive Segment where
  | run (bytes : Bytes)
  | markup (piece : Piece)

def Content.segments (c : Content) : List Segment :=
  (c.stretches.flatMap fun stretch => [.run stretch.1, .markup stretch.2]) ++ [.run c.last]

namespace Segment

/-- The text of a segment, with references in a run replaced. -/
def text (entities : Entities) : Segment → Except Fault (List Char)
  | .run bytes => Reference.decode entities bytes
  | .markup piece => .ok piece.text

def keptText (entities : Entities) : Segment → Except Fault (List Char)
  | .run bytes => Reference.decode entities (trimRun bytes)
  | .markup piece => .ok piece.text

def IsBlank (entities : Entities) (s : Segment) : Prop :=
  ∀ t, s.text entities = .ok t → IsBlankText t

/-- The characters of a segment, each with whether it is kept. -/
def marks (entities : Entities) : Segment → List (Char × Bool)
  | .run bytes =>
    let text := (Reference.decode entities (trimRun bytes)).toOption.getD []
    (single (leadingBlanks bytes)).map (·, false) ++
      (text.map (·, true) ++ (single (trailingBlanks bytes)).map (·, false))
  | .markup piece => piece.text.map (·, true)

variable {s : Segment} {t : List Char}

private theorem marks_run {run : Bytes} {text : List Char}
    (decoded : Reference.decode entities (trimRun run) = .ok text) :
    marks entities (.run run) = (single (leadingBlanks run)).map (·, false) ++
      (text.map (·, true) ++ (single (trailingBlanks run)).map (·, false)) := by
  rw [marks, decoded]
  rfl

private theorem text_eq_marks (decoded : s.text entities = .ok t) : t = (s.marks entities).map
    (·.1) := by
  cases s with
  | run bytes =>
    obtain ⟨text, left, rfl⟩ := decode_run decoded
    rw [marks_run left]
    simp [Function.comp_def]
  | markup piece =>
    obtain rfl := Except.ok.inj decoded
    simp [marks, Function.comp_def]

private theorem keptText_eq_marks (decoded : s.text entities = .ok t) :
    s.keptText entities = .ok (((s.marks entities).filter (·.2)).map (·.1)) := by
  cases s with
  | run bytes =>
    obtain ⟨text, left, rfl⟩ := decode_run decoded
    rw [marks_run left, keptText, left]
    simp [List.filter_map, Function.comp_def]
  | markup piece => simp [marks, keptText, List.filter_map, Function.comp_def]

private theorem blank_of_lost (entities : Entities) (s : Segment) :
    ∀ m ∈ s.marks entities, m.2 = false → isMarkupBlank m.1 = true := by
  intro m member lost
  cases s with
  | run bytes =>
    simp only [marks, List.mem_append, List.mem_map] at member
    rcases member with ⟨c, front, rfl⟩ | ⟨c, -, rfl⟩ | ⟨c, back, rfl⟩
    · exact isBlankText_leading bytes c front
    · cases lost
    · exact isBlankText_trailing bytes c back
  | markup piece =>
    obtain ⟨c, -, rfl⟩ := List.mem_map.mp member
    cases lost

private theorem marks_of_texts {segments : List Segment} {texts : List (List Char)}
    (decoded : List.Forall₂ (fun s t => s.text entities = .ok t) segments texts) :
    texts.flatten = (segments.flatMap (marks entities)).map (·.1) ∧
      (segments.mapM (keptText entities)).map List.flatten =
        .ok (((segments.flatMap (marks entities)).filter (·.2)).map (·.1)) ∧
      ∀ s ∈ segments, ∃ t, s.text entities = .ok t := by
  induction decoded with
  | nil => exact ⟨rfl, rfl, by simp⟩
  | @cons s t segments texts first _ ih =>
    obtain ⟨whole, left, others⟩ := ih
    obtain ⟨lefts, read, joined⟩ := Attempt.map_eq_ok.mp left
    refine ⟨?_, ?_, List.forall_mem_cons.mpr ⟨⟨t, first⟩, others⟩⟩
    · rw [List.flatten_cons, text_eq_marks first, whole]
      simp
    · rw [Attempt.mapM_cons_ok (keptText_eq_marks first) read, Except.map, List.flatten_cons, joined]
      simp

private theorem isBlank_iff (decoded : ∃ t, s.text entities = .ok t) :
    s.IsBlank entities ↔ IsBlankText ((s.marks entities).map (·.1)) := by
  obtain ⟨t, decoded⟩ := decoded
  rw [← text_eq_marks decoded]
  refine ⟨fun blank => blank t decoded, ?_⟩
  intro blank t' decoded'
  obtain rfl := Except.ok.inj (decoded.symm.trans decoded')
  exact blank

private theorem forall_isBlank_iff {segments : List Segment}
    (decoded : ∀ s ∈ segments, ∃ t, s.text entities = .ok t) :
    (∀ s ∈ segments, s.IsBlank entities) ↔
      IsBlankText ((segments.flatMap (marks entities)).map (·.1)) := by
  induction segments with
  | nil => simp [IsBlankText]
  | cons s segments ih =>
    obtain ⟨first, others⟩ := List.forall_mem_cons.mp decoded
    rw [List.forall_mem_cons, isBlank_iff first, ih others, List.flatMap_cons, List.map_append,
      Text.isBlankText_append]

private theorem forall_split_marks_run {run : Bytes} {front rest : List Char} :
    (∀ before m behind, marks entities (.run run) = before ++ m :: behind → m.2 = false →
        IsBlankText (front ++ before.map (·.1)) ∨ IsBlankText (behind.map (·.1) ++ rest)) ↔
      (leadingBlanks run ≠ [] → IsBlankText front ∨
          IsBlankText ((marks entities (.run run)).map (·.1) ++ rest)) ∧
        (trailingBlanks run ≠ [] →
          IsBlankText (front ++ (marks entities (.run run)).map (·.1)) ∨ IsBlankText rest) := by
  -- What is between the two ends is kept, so a lost character is in front of it or behind it.
  have leading := isBlankText_leading run
  have trailing := isBlankText_trailing run
  rw [marks]
  generalize ((Reference.decode entities (trimRun run)).toOption.getD []) = text
  have first := Text.forall_split_lost leading front (text ++ (single (trailingBlanks run) ++ rest))
  have last := Text.forall_split_lost trailing (front ++ (single (leadingBlanks run) ++ text)) rest
  have empty (bytes : Bytes) : single bytes = [] ↔ bytes = [] := List.map_eq_nil_iff
  simp only [List.append_assoc] at first last
  rw [Text.forall_split_append, Text.forall_split_append,
    iff_true_intro (Text.forall_split_kept text _)]
  simp only [List.map_append, List.map_map, Function.comp_def, List.map_id', List.append_assoc,
    first, last, true_and]
  simp [leading, trailing, empty]

end Segment

namespace Content

def text (entities : Entities) (c : Content) : Except Fault (List Char) :=
  (c.segments.mapM (Segment.text entities)).map List.flatten

/-- What is left of the text of content when each run is read without the white space around it. -/
def keptText (entities : Entities) (c : Content) : Except Fault (List Char) :=
  (c.segments.mapM (Segment.keptText entities)).map List.flatten

/-- White space at the ends of runs has text on one of its sides at most. -/
def LosesOutside (entities : Entities) (c : Content) : Prop :=
  ∀ front run rest, c.segments = front ++ .run run :: rest →
    (leadingBlanks run ≠ [] → (∀ s ∈ front, s.IsBlank entities) ∨
      ∀ s ∈ .run run :: rest, s.IsBlank entities) ∧
    (trailingBlanks run ≠ [] → (∀ s ∈ front ++ [.run run], s.IsBlank entities) ∨
      ∀ s ∈ rest, s.IsBlank entities)

private theorem losesOutside_iff {c : Content}
    (decoded : ∀ s ∈ c.segments, ∃ t, s.text entities = .ok t) :
    (∀ before m behind, c.segments.flatMap (Segment.marks entities) = before ++ m :: behind →
        m.2 = false → IsBlankText (before.map (·.1)) ∨ IsBlankText (behind.map (·.1))) ↔
      c.LosesOutside entities := by
  have blank {segments : List Segment} (among : segments ⊆ c.segments) :
      (∀ s ∈ segments, s.IsBlank entities) ↔
        IsBlankText ((segments.flatMap (Segment.marks entities)).map (·.1)) :=
    Segment.forall_isBlank_iff fun s member => decoded s (among member)
  rw [Text.forall_split_flatMap, LosesOutside]
  simp only [List.map_append]
  constructor
  · intro each front run rest split
    rw [blank (by simp [split]), blank (by simp [split]), blank (by simp [split]),
      blank (by simp [split])]
    simpa using Segment.forall_split_marks_run.mp (each front (.run run) rest split)
  · intro outside front s rest split
    cases s with
    | run run =>
      refine Segment.forall_split_marks_run.mpr ?_
      have loses := outside front run rest split
      rw [blank (by simp [split]), blank (by simp [split]), blank (by simp [split]),
        blank (by simp [split])] at loses
      simpa using loses
    | markup piece => exact Text.forall_split_kept piece.text _

/-- What is left of a text has all that is no white space. It has the text between the first and the
last of that as it is where the white space that is lost has text on one of its sides at most, and
only there. -/
theorem exists_keptText {c : Content} {whole : List Char} (decoded : c.text entities = .ok whole) :
    ∃ kept, c.keptText entities = .ok kept ∧
      kept.filter (!isMarkupBlank ·) = whole.filter (!isMarkupBlank ·) ∧
      (Text.trimBy isMarkupBlank kept = Text.trimBy isMarkupBlank whole ↔
        c.LosesOutside entities) := by
  obtain ⟨texts, read, rfl⟩ := Attempt.map_eq_ok.mp decoded
  obtain ⟨same, left, each⟩ := Segment.marks_of_texts (Attempt.mapM_eq_ok.mp read)
  have lost : ∀ m ∈ c.segments.flatMap (Segment.marks entities), m.2 = false →
      isMarkupBlank m.1 = true := by
    intro m member
    obtain ⟨s, -, inside⟩ := List.mem_flatMap.mp member
    exact Segment.blank_of_lost entities s m inside
  refine ⟨_, left, ?_, ?_⟩
  · -- Whether a character is kept makes no difference where it is white space.
    rw [same, List.filter_map, List.filter_map, List.filter_filter]
    refine congrArg _ (List.filter_congr ?_)
    intro m member
    cases shown : isMarkupBlank m.1 with
    | true => simp [shown]
    | false =>
      cases kept : m.2 with
      | true => simp [shown]
      | false => rw [lost m member kept] at shown; cases shown
  · rw [same, Text.trimBy_kept_iff lost, losesOutside_iff each]

end Content

end ContentImport.Markup
