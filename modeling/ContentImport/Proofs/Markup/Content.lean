import ContentImport.Markup.Event
import Mathlib.Data.List.DropRight
import Mathlib.Data.List.Infix

/-!
Mixed content: runs of text and the pieces of markup between them, with what a reader makes of both.
White space at either end of a run is lost, and so is white space in an end tag; everything else is
kept as it is written.
-/

set_option autoImplicit false
set_option relaxedAutoImplicit false

namespace ContentImport.Markup

def tagName (tag : Bytes) : Bytes :=
  tag.takeWhile (!isBlank ·)

/-- Whether no bracket closes a tag within the given bytes and no quotation mark stays open. -/
def isEnclosed : Option UInt8 → Bytes → Bool
  | quote, [] => quote.isNone
  | quote, b :: rest =>
    (b ≠ byte '>' || quote.isSome) && isEnclosed (Token.nextQuote quote b) rest

/-- The content of a start tag begins with a name, is enclosed, and binds prefixes only where they
may be bound. -/
structure IsTag (tag : Bytes) : Prop where
  named : ∃ first ∈ tag.head?, isBlank first = false ∧ first ∉ ascii "!/?>"
  enclosed : isEnclosed none tag = true
  bound : ∀ scope : Scope, ∃ inner, scope.enter (tag.dropWhile (!isBlank ·)) = .ok inner

theorem IsTag.of_unbound {tag : Bytes}
    (named : ∃ first ∈ tag.head?, isBlank first = false ∧ first ∉ ascii "!/?>")
    (enclosed : isEnclosed none tag = true)
    (unbound : ∀ a ∈ (Attribute.scan (tag.dropWhile (!isBlank ·))).items,
      Scope.boundPrefix? a.key = none) : IsTag tag := by
  refine ⟨named, enclosed, fun scope => ⟨scope, ?_⟩⟩
  rw [Scope.enter]
  generalize (Attribute.scan (tag.dropWhile (!isBlank ·))).items = attributes at unbound
  induction attributes with
  | nil => rfl
  | cons a rest ih =>
    obtain ⟨first, others⟩ := List.forall_mem_cons.mp unbound
    rw [List.foldlM_cons, Scope.bind, first]
    exact ih others

/-- A name has neither white space nor what can end or quote. -/
def IsName (name : Bytes) : Prop :=
  name ≠ [] ∧ ∀ b ∈ name, isBlank b = false ∧ b ∉ ascii ">\"'"

instance (name : Bytes) : Decidable (IsName name) :=
  inferInstanceAs (Decidable (_ ∧ _))

/-- A piece of markup; each holds the bytes within its delimiters. -/
inductive Piece where
  | opened (tag : Bytes)
  | whole (tag : Bytes)
  /-- An end tag: its name and the white space behind it. -/
  | closed (name blanks : Bytes)
  | characterData (content : Bytes)
  | comment (content : Bytes)
  | instruction (content : Bytes)

namespace Piece

/-- A piece as it is written, without its first and its last bracket. -/
def inner : Piece → Bytes
  | .opened tag => tag
  | .whole tag => tag ++ ascii "/"
  | .closed name blanks => ascii "/" ++ name ++ blanks
  | .characterData content => ascii "![CDATA[" ++ content ++ ascii "]]"
  | .comment content => ascii "!--" ++ content ++ ascii "--"
  | .instruction content => ascii "?" ++ content ++ ascii "?"

def source (p : Piece) : Bytes :=
  ascii "<" ++ p.inner ++ ascii ">"

/-- What is left of a piece: an end tag without white space. -/
def kept : Piece → Bytes
  | .closed name _ => (closed name []).source
  | p => p.source

/-- What the grammar of markup asks of a piece by itself. -/
def WellFormed : Piece → Prop
  | .opened tag => IsTag tag ∧ IsName (tagName tag) ∧ Event.withoutSlash? tag = none
  | .whole tag => IsTag tag
  | .closed name blanks => IsName name ∧ ∀ b ∈ blanks, isBlank b = true
  | .characterData content => ¬ ascii "]]>" <:+: content
  | .comment content => ¬ ascii "-->" <:+: content
  | .instruction content => content.head? ≠ some (byte '>') ∧ ¬ ascii "?>" <:+: content

def token : Piece → Token
  | .opened tag => .startTag tag
  | .whole tag => .startTag (tag ++ ascii "/")
  | .closed name blanks => .endTag (name ++ blanks)
  | .characterData content => .characterData content
  | .comment content => .comment content
  | .instruction content => .instruction content

/-- The names of the elements that are open behind a piece, the innermost in front; none where the
piece closes another element than the innermost. -/
def nest (names : List Bytes) : Piece → Option (List Bytes)
  | .opened tag => some (tagName tag :: names)
  | .closed name _ => if names.head? = some name then some names.tail else none
  | _ => some names

end Piece

/-- A run of text without the white space around it. -/
def trimRun (run : Bytes) : Bytes :=
  Token.trimEnd (run.dropWhile isBlank).reverse

/-- Runs of text, each with the piece of markup that follows it, and the run after them. -/
structure Content where
  stretches : List (Bytes × Piece)
  last : Bytes

namespace Content

def source (c : Content) : Bytes :=
  c.stretches.flatMap (fun stretch => stretch.1 ++ stretch.2.source) ++ c.last

/-- What is left of mixed content when it is read and written again. -/
def kept (c : Content) : Bytes :=
  c.stretches.flatMap (fun stretch => trimRun stretch.1 ++ stretch.2.kept) ++ trimRun c.last

/-- Runs have no bracket, pieces are well-formed, and elements are closed in the order in which they
nest. -/
structure WellFormed (c : Content) : Prop where
  runs : ∀ stretch ∈ c.stretches, byte '<' ∉ stretch.1
  last : byte '<' ∉ c.last
  pieces : ∀ stretch ∈ c.stretches, stretch.2.WellFormed
  balanced : (c.stretches.map (·.2)).foldlM Piece.nest [] = some []

end Content

/-! ## White space -/

/-- Bytes without some of their white space. -/
structure LosesBlanks (kept bytes : Bytes) : Prop where
  sublist : kept.Sublist bytes
  ink : kept.countP (!isBlank ·) = bytes.countP (!isBlank ·)

namespace LosesBlanks

variable {kept kept' bytes bytes' : Bytes}

private theorem refl (bytes : Bytes) : LosesBlanks bytes bytes :=
  ⟨.refl bytes, rfl⟩

private theorem trans {left : Bytes} (first : LosesBlanks left kept)
    (second : LosesBlanks kept bytes) :
    LosesBlanks left bytes :=
  ⟨first.sublist.trans second.sublist, first.ink.trans second.ink⟩

private theorem append (front : LosesBlanks kept bytes) (rest : LosesBlanks kept' bytes') :
    LosesBlanks (kept ++ kept') (bytes ++ bytes') := by
  refine ⟨front.sublist.append rest.sublist, ?_⟩
  rw [List.countP_append, List.countP_append, front.ink, rest.ink]

private theorem reverse (loses : LosesBlanks kept bytes) : LosesBlanks kept.reverse bytes.reverse :=
  ⟨loses.sublist.reverse, by rw [List.countP_reverse, List.countP_reverse, loses.ink]⟩

private theorem append_eq_iff (front : LosesBlanks kept bytes) (rest : LosesBlanks kept' bytes') :
    kept ++ kept' = bytes ++ bytes' ↔ kept = bytes ∧ kept' = bytes' := by
  constructor
  · intro same
    have lengths := congrArg List.length same
    rw [List.length_append, List.length_append] at lengths
    have shorter := front.sublist.length_le
    have shorter' := rest.sublist.length_le
    exact ⟨front.sublist.eq_of_length (by omega), rest.sublist.eq_of_length (by omega)⟩
  · rintro ⟨rfl, rfl⟩
    rfl

private theorem blanks (blank : ∀ b ∈ bytes, isBlank b = true) : LosesBlanks [] bytes := by
  refine ⟨List.nil_sublist bytes, ?_⟩
  rw [List.countP_nil, eq_comm, List.countP_eq_zero]
  intro b member
  simp [blank b member]

private theorem dropWhile (bytes : Bytes) : LosesBlanks (bytes.dropWhile isBlank) bytes := by
  have front := blanks fun b (member : b ∈ bytes.takeWhile isBlank) => List.mem_takeWhile_imp member
  have parts := front.append (refl (bytes.dropWhile isBlank))
  rwa [List.takeWhile_append_dropWhile] at parts

private theorem trimRun (run : Bytes) : LosesBlanks (trimRun run) run := by
  have ends := (dropWhile (run.dropWhile isBlank).reverse).reverse
  rw [List.reverse_reverse] at ends
  exact ends.trans (dropWhile run)

end LosesBlanks

theorem trimRun_eq (run : Bytes) : trimRun run = (run.dropWhile isBlank).rdropWhile isBlank :=
  rfl

/-- No white space stands at either end of a run. -/
def IsTight (run : Bytes) : Prop :=
  (∀ b ∈ run.head?, isBlank b = false) ∧ ∀ b ∈ run.getLast?, isBlank b = false

private theorem trimRun_eq_self_iff {run : Bytes} : trimRun run = run ↔ IsTight run := by
  have whole : trimRun run = run ↔ run.dropWhile isBlank = run ∧ run.rdropWhile isBlank = run := by
    constructor
    · intro same
      have first : run.dropWhile isBlank = run := by
        refine (List.dropWhile_sublist _).eq_of_length_le ?_
        have prefix' := (List.rdropWhile_prefix isBlank (run.dropWhile isBlank)).length_le
        rwa [← trimRun_eq, same] at prefix'
      refine ⟨first, ?_⟩
      rw [trimRun_eq, first] at same
      exact same
    · rintro ⟨first, last⟩
      rw [trimRun_eq, first, last]
  rw [whole, IsTight, List.rdropWhile_eq_self_iff, List.dropWhile_eq_self_iff]
  cases run with
  | nil => simp
  | cons b rest => simp [List.getLast?_eq_some_getLast]

private theorem Piece.kept_loses {p : Piece} (formed : p.WellFormed) :
    LosesBlanks p.kept p.source := by
  cases p with
  | closed name blanks =>
    have inner := (LosesBlanks.refl (ascii "/" ++ name)).append (.blanks formed.2)
    exact ((LosesBlanks.refl (ascii "<")).append inner).append (.refl _)
  | _ => exact .refl _

private theorem Piece.kept_eq_source_iff (p : Piece) :
    p.kept = p.source ↔ ∀ name blanks, p = .closed name blanks → blanks = [] := by
  cases p with
  | closed name blanks => simp [kept, source, inner]
  | _ => exact iff_of_true rfl fun _ _ other => nomatch other

/-- A stretch of mixed content is kept as it is written. -/
def IsTightStretch (stretch : Bytes × Piece) : Prop :=
  IsTight stretch.1 ∧ ∀ name blanks, stretch.2 = .closed name blanks → blanks = []

private theorem flatMap_kept {stretches : List (Bytes × Piece)}
    (formed : ∀ stretch ∈ stretches, stretch.2.WellFormed) :
    LosesBlanks (stretches.flatMap fun stretch => trimRun stretch.1 ++ stretch.2.kept)
        (stretches.flatMap fun stretch => stretch.1 ++ stretch.2.source) ∧
      ((stretches.flatMap fun stretch => trimRun stretch.1 ++ stretch.2.kept) =
        (stretches.flatMap fun stretch => stretch.1 ++ stretch.2.source) ↔
          ∀ stretch ∈ stretches, IsTightStretch stretch) := by
  induction stretches with
  | nil => exact ⟨.refl _, by simp⟩
  | cons stretch stretches ih =>
    obtain ⟨first, others⟩ := List.forall_mem_cons.mp formed
    obtain ⟨rest, same⟩ := ih others
    have run := LosesBlanks.trimRun stretch.1
    have piece := Piece.kept_loses first
    refine ⟨(run.append piece).append rest, ?_⟩
    rw [List.flatMap_cons, List.flatMap_cons, (run.append piece).append_eq_iff rest,
      run.append_eq_iff piece, trimRun_eq_self_iff, Piece.kept_eq_source_iff, same,
      List.forall_mem_cons, IsTightStretch]

namespace Content

variable {c : Content}

/-- White space touches no piece of markup, and none is in an end tag. -/
def Tight (c : Content) : Prop :=
  (∀ stretch ∈ c.stretches, IsTightStretch stretch) ∧ IsTight c.last

theorem WellFormed.kept_loses (formed : c.WellFormed) : LosesBlanks c.kept c.source :=
  (flatMap_kept formed.pieces).1.append (.trimRun c.last)

/-- Mixed content is kept as it is written where white space touches no piece of markup, and only
there. -/
theorem WellFormed.kept_eq_source_iff (formed : c.WellFormed) : c.kept = c.source ↔ c.Tight := by
  obtain ⟨loses, same⟩ := flatMap_kept formed.pieces
  rw [kept, source, loses.append_eq_iff (.trimRun c.last), same, trimRun_eq_self_iff, Tight]

end Content

end ContentImport.Markup
