import ContentImport.Markup.Reference
import Mathlib.Data.List.Infix

/-!
A document type with declarations of entities and comments, and the scan for declarations over its
text. The scan finds a declaration wherever it stands, so those that are in comments are found among
the others.
-/

set_option autoImplicit false
set_option relaxedAutoImplicit false

namespace ContentImport.Markup

open Text (isMarkupBlank)

namespace Entities

/-- The text that a declaration begins with. -/
def keyword : List Char :=
  "<!ENTITY".toList

/-- The characters that a name goes on with. -/
def isNameChar (c : Char) : Bool :=
  Text.isWordChar c || c == '.' || c == '-'

/-- A declaration of an entity, with the white space between its parts. -/
structure Declaration where
  name : List Char
  value : List Char
  quote : Char
  beforeName : List Char
  beforeValue : List Char
  beforeEnd : List Char

namespace Declaration

def source (d : Declaration) : List Char :=
  keyword ++ (d.beforeName ++ (d.name ++ (d.beforeValue ++
    (d.quote :: (d.value ++ (d.quote :: (d.beforeEnd ++ ['>'])))))))

def entry (d : Declaration) : List Char × List Char :=
  (d.name, d.value)

/-- A name begins with a letter or an underscore. -/
def IsName (name : List Char) : Prop :=
  ∃ first rest, name = first :: rest ∧ (first.isAlpha || first == '_') = true ∧
    ∀ c ∈ rest, isNameChar c = true

structure WellFormed (d : Declaration) : Prop where
  name : IsName d.name
  quote : d.quote = '"' ∨ d.quote = '\''
  value : d.quote ∉ d.value
  beforeName : d.beforeName ≠ [] ∧ ∀ c ∈ d.beforeName, isMarkupBlank c = true
  beforeValue : d.beforeValue ≠ [] ∧ ∀ c ∈ d.beforeValue, isMarkupBlank c = true
  beforeEnd : ∀ c ∈ d.beforeEnd, isMarkupBlank c = true

end Declaration

/-! ## Reading a declaration -/

private theorem after?_append (expected rest : List Char) :
    after? expected (expected ++ rest) = some rest := by
  rw [after?, if_pos (List.isPrefixOf_iff_prefix.mpr (List.prefix_append _ _)), List.drop_left]

private theorem dropWhile_blanks {blanks rest : List Char}
    (blank : ∀ c ∈ blanks, isMarkupBlank c = true) (ink : ∀ c ∈ rest.head?, Text.isSpace c = false) :
    (blanks ++ rest).dropWhile Text.isSpace = rest := by
  rw [List.dropWhile_append_of_pos fun c member => Text.isSpace_of_isMarkupBlank (blank c member)]
  cases rest with
  | nil => rfl
  | cons c rest => exact List.dropWhile_cons_of_neg (by simp [ink c rfl])

private theorem afterSpace?_append {blanks rest : List Char}
    (blank : blanks ≠ [] ∧ ∀ c ∈ blanks, isMarkupBlank c = true)
    (ink : ∀ c ∈ rest.head?, Text.isSpace c = false) : afterSpace? (blanks ++ rest) = some rest := by
  have longer : rest.length < (blanks ++ rest).length := by
    have positive := List.length_pos_iff.mpr blank.1
    rw [List.length_append]
    omega
  rw [afterSpace?, dropWhile_blanks blank.2 ink]
  exact if_pos longer

private theorem name?_append {name rest : List Char} (named : Declaration.IsName name)
    (ends : ∀ c ∈ rest.head?, isNameChar c = false) : name? (name ++ rest) = some (name, rest) := by
  obtain ⟨first, others, rfl, begins, goes⟩ := named
  have next : rest.takeWhile isNameChar = [] ∧ rest.dropWhile isNameChar = rest := by
    cases rest with
    | nil => exact ⟨rfl, rfl⟩
    | cons c rest => simp [ends c rfl]
  have taken : (others ++ rest).takeWhile isNameChar = others := by
    rw [List.takeWhile_append_of_pos goes, next.1, List.append_nil]
  have dropped : (others ++ rest).dropWhile isNameChar = rest := by
    rw [List.dropWhile_append_of_pos goes, next.2]
  rw [List.cons_append, name?, if_pos begins]
  exact congrArg some (Prod.ext (congrArg (first :: ·) taken) dropped)

private theorem quoted?_append {quote : Char} (mark : quote = '"' ∨ quote = '\'')
    {value : List Char}
    (inside : quote ∉ value) (rest : List Char) :
    quoted? (quote :: (value ++ quote :: rest)) = some (value, rest) := by
  have plain : ∀ c ∈ value, (decide (c ≠ quote)) = true := by
    intro c member
    have differ : c ≠ quote := fun same => inside (same ▸ member)
    simpa using differ
  rw [quoted?, if_pos mark, List.dropWhile_append_of_pos plain, List.takeWhile_append_of_pos plain]
  simp

private theorem blank_cases {c : Char} (blank : isMarkupBlank c = true) :
    c = ' ' ∨ c = '\t' ∨ c = '\n' ∨ c = '\r' := by
  simpa [isMarkupBlank, or_assoc] using blank

private theorem isNameChar_of_blank {c : Char} (blank : isMarkupBlank c = true) :
    isNameChar c = false := by
  rcases blank_cases blank with rfl | rfl | rfl | rfl <;> decide +kernel

private theorem isSpace_of_begins {c : Char} (begins : (c.isAlpha || c == '_') = true) :
    Text.isSpace c = false := by
  have range : 65 ≤ c.toNat ∧ c.toNat ≤ 122 := by
    rcases Bool.or_eq_true_iff.mp begins with letter | underscore
    · rcases Bool.or_eq_true_iff.mp letter with upper | lower
      · have within : 'A'.val ≤ c.val ∧ c.val ≤ 'Z'.val := of_decide_eq_true upper
        exact ⟨within.1, Nat.le_trans within.2 (by decide)⟩
      · obtain ⟨least, most⟩ := Bool.and_eq_true_iff.mp lower
        exact ⟨Nat.le_trans (by decide) (of_decide_eq_true least), of_decide_eq_true most⟩
    · obtain rfl := beq_iff_eq.mp underscore
      decide
  simp only [Text.isSpace, Bool.or_eq_false_iff, Bool.and_eq_false_iff, decide_eq_false_iff_not]
  omega

private theorem declaration?_eq (s : List Char) :
    declaration? s =
      (after? keyword s).bind fun s => (afterSpace? s).bind fun s => (name? s).bind fun named =>
        (afterSpace? named.2).bind fun s => (quoted? s).bind fun quoted =>
          (after? ['>'] (quoted.2.dropWhile Text.isSpace)).bind fun rest =>
            some ((named.1, quoted.1), rest) := by
  rw [declaration?]
  rfl

private theorem declaration?_source {d : Declaration} (formed : d.WellFormed) (rest : List Char) :
    declaration? (d.source ++ rest) = some (d.entry, rest) := by
  have mark : Text.isSpace d.quote = false := by
    rcases formed.quote with same | same <;> rw [same] <;> decide
  have nameInk (more : List Char) : ∀ c ∈ (d.name ++ more).head?, Text.isSpace c = false := by
    obtain ⟨first, others, named, begins, -⟩ := formed.name
    rw [named]
    simpa using isSpace_of_begins begins
  have nameEnds (more : List Char) : ∀ c ∈ (d.beforeValue ++ more).head?, isNameChar c = false := by
    obtain ⟨blank, blanks, gap⟩ := List.exists_cons_of_ne_nil formed.beforeValue.1
    rw [gap]
    simpa using isNameChar_of_blank (formed.beforeValue.2 blank (by simp [gap]))
  have ends : after? ['>'] ((d.beforeEnd ++ ('>' :: rest)).dropWhile Text.isSpace) = some rest := by
    have ink : Text.isSpace '>' = false := by decide
    rw [dropWhile_blanks formed.beforeEnd (by simpa using ink)]
    exact after?_append ['>'] rest
  have source : d.source ++ rest = keyword ++ (d.beforeName ++ (d.name ++ (d.beforeValue ++
      (d.quote :: (d.value ++ (d.quote :: (d.beforeEnd ++ '>' :: rest))))))) := by
    simp [Declaration.source]
  rw [source, declaration?_eq, after?_append, Option.bind_some,
    afterSpace?_append formed.beforeName (nameInk _), Option.bind_some,
    name?_append formed.name (nameEnds _), Option.bind_some,
    afterSpace?_append formed.beforeValue (by simpa using mark), Option.bind_some,
    quoted?_append formed.quote formed.value, Option.bind_some, ends]
  rfl

theorem Declaration.IsName.ordinary {name : List Char} (named : IsName name) :
    (∀ c ∈ name, c ≠ '&' ∧ c ≠ ';') ∧ ∀ ds, name ≠ '#' :: ds := by
  obtain ⟨first, rest, rfl, begins, goes⟩ := named
  have letter (c : Char) (begins : (c.isAlpha || c == '_') = true) : c ≠ '&' ∧ c ≠ ';' ∧ c ≠ '#' := by
    refine ⟨?_, ?_, ?_⟩ <;> rintro rfl <;> exact absurd begins (by decide)
  have further (c : Char) (goes : isNameChar c = true) : c ≠ '&' ∧ c ≠ ';' := by
    constructor <;> rintro rfl <;> exact absurd goes (by decide +kernel)
  refine ⟨List.forall_mem_cons.mpr ⟨?_, fun c member => further c (goes c member)⟩, ?_⟩
  · exact ⟨(letter first begins).1, (letter first begins).2.1⟩
  · intro ds same
    exact (letter first begins).2.2 (List.cons.inj same).1

/-! ## Scanning -/

private theorem declarationsFrom_passed (passed : Nat) (s : List Char) :
    declarationsFrom passed s = declarations (s.drop passed) := by
  induction s generalizing passed with
  | nil => cases passed <;> rfl
  | cons c s ih =>
    cases passed with
    | zero => rfl
    | succ passed => exact ih passed

private theorem declarations_source_append {d : Declaration} (formed : d.WellFormed)
    (rest : List Char) :
    declarations (d.source ++ rest) = d.entry :: declarations rest := by
  have found := declaration?_source formed rest
  obtain ⟨tail, source⟩ : ∃ tail, d.source = '<' :: tail := ⟨_, rfl⟩
  rw [source, List.cons_append] at found ⊢
  rw [declarations, declarationsFrom, found]
  dsimp only
  rw [declarationsFrom_passed]
  simp

private theorem declarations_cons {c : Char} {rest : List Char}
    (none : declaration? (c :: rest) = none) :
    declarations (c :: rest) = declarations rest := by
  rw [declarations, declarationsFrom, none]
  rfl

private theorem declaration?_eq_none {s : List Char} (differs : ¬ keyword <+: s) :
    declaration? s = none := by
  rw [declaration?_eq, after?, if_neg (mt List.isPrefixOf_iff_prefix.mp differs)]
  rfl

private theorem declarations_append_of_bracketless {t : List Char} (bracketless : '<' ∉ t)
    (rest : List Char) : declarations (t ++ rest) = declarations rest := by
  induction t with
  | nil => rfl
  | cons c t ih =>
    obtain ⟨differ, others⟩ := not_or.mp (mt List.mem_cons.mpr bracketless)
    rw [List.cons_append, declarations_cons, ih others]
    refine declaration?_eq_none ?_
    rintro ⟨more, split⟩
    exact differ (List.cons.inj split).1

private theorem declarations_append_of_quiet {t : List Char} (quiet : ¬ keyword <:+: t) {c : Char}
    (apart : c ∉ keyword.tail) (rest : List Char) :
    declarations (t ++ c :: rest) = declarations (c :: rest) := by
  induction t with
  | nil => rfl
  | cons b t ih =>
    have later : ¬ keyword <:+: t := fun inside => quiet (inside.trans (List.suffix_cons b t).isInfix)
    rw [List.cons_append, declarations_cons, ih later]
    refine declaration?_eq_none ?_
    rintro ⟨more, split⟩
    rw [← List.cons_append] at split
    -- The keyword is within the text, or it goes on with the character behind it.
    rcases List.append_eq_append_iff.mp split with ⟨beyond, within, -⟩ | ⟨beyond, across, next⟩
    · exact quiet (List.IsPrefix.isInfix ⟨beyond, within.symm⟩)
    · cases beyond with
      | nil =>
        rw [List.append_nil] at across
        exact quiet (List.IsPrefix.isInfix ⟨[], by rw [across, List.append_nil]⟩)
      | cons d beyond =>
        obtain ⟨rfl, -⟩ := List.cons.inj next
        refine apart ?_
        rw [across]
        simp

end Entities

/-! ## Document types -/

open Entities (Declaration declarations keyword)

/-- What stands between the square brackets of a document type. -/
inductive SubsetItem where
  | blanks (s : List Char)
  | declaration (d : Declaration)
  /-- A comment: texts, each with the declaration that is commented out behind it, and the last
  text. -/
  | comment (stretches : List (List Char × Declaration)) (last : List Char)

namespace SubsetItem

/-- The text within a comment. -/
def remark (stretches : List (List Char × Declaration)) (last : List Char) : List Char :=
  (stretches.flatMap fun stretch => stretch.1 ++ stretch.2.source) ++ last

def source : SubsetItem → List Char
  | .blanks s => s
  | .declaration d => d.source
  | .comment stretches last => "<!--".toList ++ (remark stretches last ++ "-->".toList)

/-- What the grammar of a document type asks of an item; no text in a comment begins a
declaration. -/
def WellFormed : SubsetItem → Prop
  | .blanks s => ∀ c ∈ s, isMarkupBlank c = true
  | .declaration d => d.WellFormed
  | .comment stretches last =>
    (∀ stretch ∈ stretches, ¬ keyword <:+: stretch.1 ∧ stretch.2.WellFormed) ∧
      ¬ keyword <:+: last ∧ ¬ "--".toList <:+: remark stretches last ++ ['-']

def declared : SubsetItem → List (List Char × List Char)
  | .declaration d => [d.entry]
  | _ => []

/-- The entities that are declared in the text of an item, commented out or not. -/
def written : SubsetItem → List (List Char × List Char)
  | .blanks _ => []
  | .declaration d => [d.entry]
  | .comment stretches _ => stretches.map (·.2.entry)

private theorem declarations_comment {stretches : List (List Char × Declaration)} {last : List Char}
    (formed : (comment stretches last).WellFormed) (rest : List Char) :
    declarations ((comment stretches last).source ++ rest) =
      (comment stretches last).written ++ declarations rest := by
  obtain ⟨each, quiet, -⟩ := formed
  have opening (more : List Char) : declarations ("<!--".toList ++ more) = declarations more := by
    have bang : '<' ∉ "!--".toList := by decide
    have first : declarations ('<' :: ("!--".toList ++ more)) = declarations ("!--".toList ++ more) :=
      Entities.declarations_cons rfl
    exact first.trans (Entities.declarations_append_of_bracketless bang more)
  have closing : declarations (last ++ ("-->".toList ++ rest)) = declarations rest := by
    have dashes : '<' ∉ "-->".toList := by decide
    have quietly : declarations (last ++ '-' :: ("->".toList ++ rest)) =
        declarations ('-' :: ("->".toList ++ rest)) :=
      Entities.declarations_append_of_quiet quiet (by decide) _
    exact quietly.trans (Entities.declarations_append_of_bracketless dashes rest)
  rw [source, List.append_assoc, opening, remark, written]
  simp only [List.append_assoc]
  -- Each text is passed up to the bracket of the declaration behind it.
  induction stretches with
  | nil => exact closing
  | cons stretch stretches ih =>
    obtain ⟨⟨quietFirst, formedFirst⟩, others⟩ := List.forall_mem_cons.mp each
    rw [List.flatMap_cons, List.append_assoc, List.append_assoc]
    have quietly (more : List Char) : declarations (stretch.1 ++ (stretch.2.source ++ more)) =
        declarations (stretch.2.source ++ more) :=
      Entities.declarations_append_of_quiet quietFirst (by decide) _
    rw [quietly, Entities.declarations_source_append formedFirst, ih others]
    rfl

private theorem declarations_source_append {item : SubsetItem} (formed : item.WellFormed)
    (rest : List Char) : declarations (item.source ++ rest) = item.written ++ declarations rest := by
  cases item with
  | blanks s =>
    refine Entities.declarations_append_of_bracketless ?_ rest
    intro member
    exact absurd (formed '<' member) (by decide)
  | declaration d => exact Entities.declarations_source_append formed rest
  | comment stretches last => exact declarations_comment formed rest

end SubsetItem

/-- The text of a document type: the name of the root and what may follow it, the items within
square brackets, and white space. -/
structure InternalSubset where
  root : List Char
  items : List SubsetItem
  trail : List Char

namespace InternalSubset

variable {subset : InternalSubset}

def source (subset : InternalSubset) : List Char :=
  subset.root ++ '[' :: (subset.items.flatMap SubsetItem.source ++ ']' :: subset.trail)

structure WellFormed (subset : InternalSubset) : Prop where
  root : ¬ keyword <:+: subset.root
  items : ∀ item ∈ subset.items, item.WellFormed
  trail : ∀ c ∈ subset.trail, isMarkupBlank c = true

/-- The entities that are declared, in order; one may be declared more than once. -/
def declared (subset : InternalSubset) : List (List Char × List Char) :=
  subset.items.flatMap SubsetItem.declared

/-- The entities that are declared and those whose declaration is commented out, in order. -/
def written (subset : InternalSubset) : List (List Char × List Char) :=
  subset.items.flatMap SubsetItem.written

/-- The scan finds all declarations that are written, and takes them in order. -/
theorem declarations_source (formed : subset.WellFormed) :
    declarations subset.source = subset.written := by
  have trail : declarations (']' :: subset.trail) = [] := by
    have bracketless : '<' ∉ ']' :: subset.trail := by
      rw [List.mem_cons]
      rintro (same | member)
      · exact absurd same (by decide)
      · exact absurd (formed.trail '<' member) (by decide)
    have none := Entities.declarations_append_of_bracketless bracketless []
    rwa [List.append_nil] at none
  have items (items : List SubsetItem) (formed : ∀ item ∈ items, item.WellFormed) :
      declarations (items.flatMap SubsetItem.source ++ ']' :: subset.trail) =
        items.flatMap SubsetItem.written := by
    induction items with
    | nil => exact trail
    | cons item items ih =>
      obtain ⟨first, others⟩ := List.forall_mem_cons.mp formed
      rw [List.flatMap_cons, List.flatMap_cons, List.append_assoc,
        SubsetItem.declarations_source_append first, ih others]
  have bracket : '<' ∉ ['['] := by decide
  rw [source, Entities.declarations_append_of_quiet formed.root (by decide)]
  exact (Entities.declarations_append_of_bracketless bracket _).trans (items _ formed.items)

theorem declared_subset_written (subset : InternalSubset) : subset.declared ⊆ subset.written := by
  intro entry member
  obtain ⟨item, inside, declared⟩ := List.mem_flatMap.mp member
  refine List.mem_flatMap.mpr ⟨item, inside, ?_⟩
  cases item with
  | blanks | comment => cases declared
  | declaration d => exact declared

theorem isName_of_mem_declared (formed : subset.WellFormed) {entry : List Char × List Char}
    (member : entry ∈ subset.declared) : Declaration.IsName entry.1 := by
  obtain ⟨item, inside, declared⟩ := List.mem_flatMap.mp member
  have formed := formed.items item inside
  cases item with
  | blanks | comment => cases declared
  | declaration d =>
    obtain rfl := List.mem_singleton.mp declared
    exact formed.name

end InternalSubset

end ContentImport.Markup
