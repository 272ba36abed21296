import ContentImport.Iri
import ContentImport.Proofs.Iri.Components
import Mathlib.Data.List.DropRight

/-!
Local names and last segments. The local name of an IRI is what follows its last number sign, else
its last slash, else its last colon, wherever that is not empty; the last segment of a text is what
follows its last number sign or slash, whichever stands later. Main statement: the shapes of the
texts of which the two differ.
-/

set_option autoImplicit false
set_option relaxedAutoImplicit false

namespace ContentImport.Iri

/-! ## Separators -/

variable {separator : Char} {s front rest : List Char}

private theorem afterLast?_eq_none (absent : separator ∉ s) : afterLast? separator s = none := by
  induction s with
  | nil => rfl
  | cons c s ih =>
    obtain ⟨other, later⟩ := not_or.mp (mt List.mem_cons.mpr absent)
    rw [afterLast?, ih later, if_neg (Ne.symm other)]

private theorem afterLast?_append (last : separator ∉ rest) :
    afterLast? separator (front ++ separator :: rest) = some rest := by
  induction front with
  | nil => rw [List.nil_append, afterLast?, afterLast?_eq_none last, if_pos rfl]
  | cons c front ih => rw [List.cons_append, afterLast?, ih]

private theorem tail?_eq_none (absent : separator ∉ s) : tail? s separator = none := by
  rw [tail?, afterLast?_eq_none absent, Option.filter_none]

private theorem tail?_append (last : separator ∉ rest) (followed : rest ≠ []) :
    tail? (front ++ separator :: rest) separator = some rest := by
  rw [tail?, afterLast?_append last]
  simpa using followed

private theorem tail?_concat : tail? (front ++ [separator]) separator = none := by
  rw [tail?, afterLast?_append List.not_mem_nil]
  rfl

private theorem getLast?_of_tail?_eq_none (none : tail? s separator = none)
    (member : separator ∈ s) :
    s.getLast? = some separator := by
  obtain ⟨front, rest, rfl, last⟩ := Components.exists_last member
  by_cases followed : rest = []
  · rw [followed, List.getLast?_concat]
  · rw [tail?_append last followed] at none
    cases none

private theorem length_lt_of_tail?_eq_some {tail : List Char}
    (found : tail? s separator = some tail) :
    tail.length < s.length := by
  by_cases member : separator ∈ s
  · obtain ⟨front, rest, rfl, last⟩ := Components.exists_last member
    rw [tail?, afterLast?_append last] at found
    obtain rfl := Option.some.inj (Option.filter_eq_some_iff.mp found).1
    rw [List.length_append, List.length_cons]
    omega
  · rw [tail?_eq_none member] at found
    cases found

/-! ## Local parts -/

private theorem localPart_of_last (before after : List Char)
    (order : ['#', '/', ':'] = before ++ separator :: after)
    (absent : ∀ c ∈ before, c ∉ front ++ separator :: rest) (last : separator ∉ rest)
    (followed : rest ≠ []) : localPart (front ++ separator :: rest) = rest := by
  have passed : before.findSome? (tail? (front ++ separator :: rest)) = none :=
    List.findSome?_eq_none_iff.mpr fun c member => tail?_eq_none (absent c member)
  rw [localPart, order, List.findSome?_append, passed, Option.none_or, List.findSome?_cons,
    tail?_append last followed]
  rfl

private theorem localPart_eq_self_iff :
    localPart s = s ↔ ∀ separator ∈ ['#', '/', ':'], tail? s separator = none := by
  rw [← List.findSome?_eq_none_iff, localPart]
  cases found : ['#', '/', ':'].findSome? (tail? s) with
  | none => simp
  | some part =>
    obtain ⟨separator, -, tailed⟩ := List.exists_of_findSome?_eq_some found
    have shorter := length_lt_of_tail?_eq_some tailed
    refine iff_of_false (fun same => ?_) nofun
    rw [Option.getD_some] at same
    exact absurd (congrArg List.length same) (Nat.ne_of_lt shorter)

private theorem localPart_cons {c : Char} (letter : c ∉ ['#', '/', ':']) (cut : localPart s ≠ s) :
    localPart (c :: s) = localPart s := by
  have tails : ∀ separator ∈ ['#', '/', ':'], tail? (c :: s) separator = tail? s separator := by
    intro separator member
    have other : c ≠ separator := fun same => letter (same ▸ member)
    rw [tail?, tail?, afterLast?, if_neg other]
    cases afterLast? separator s <;> rfl
  have found : ['#', '/', ':'].findSome? (tail? (c :: s)) =
      ['#', '/', ':'].findSome? (tail? s) := by
    rw [← List.head?_filterMap, ← List.head?_filterMap, List.filterMap_congr tails]
  rw [localPart] at cut ⊢
  rw [localPart, found]
  cases given : ['#', '/', ':'].findSome? (tail? s) with
  | none => exact absurd (by rw [given, Option.getD_none]) cut
  | some part => rfl

/-! ## Last segments -/

/-- The last segment of a text: what follows its last number sign or slash, and the whole text if it
has neither. -/
def IsLastSegment (s segment : List Char) : Prop :=
  ∃ front, s = front ++ segment ∧ (∀ c ∈ front.getLast?, c = '#' ∨ c = '/') ∧
    '#' ∉ segment ∧ '/' ∉ segment

theorem isLastSegment_iff {segment : List Char} :
    IsLastSegment s segment ↔ s.rtakeWhile (fun c => !(c == '#' || c == '/')) = segment := by
  constructor
  · rintro ⟨front, rfl, ends, numberSign, slash⟩
    have kept : ∀ c ∈ segment.reverse, (!(c == '#' || c == '/')) = true := by
      intro c member
      have within := List.mem_reverse.mp member
      have notSign : c ≠ '#' := fun same => numberSign (same ▸ within)
      have notSlash : c ≠ '/' := fun same => slash (same ▸ within)
      simp [notSign, notSlash]
    have stopped : front.reverse.takeWhile (fun c => !(c == '#' || c == '/')) = [] := by
      rcases List.eq_nil_or_concat' front with rfl | ⟨front, c, rfl⟩
      · rfl
      · have separates := ends c List.getLast?_concat
        rcases separates with rfl | rfl <;> simp
    rw [List.rtakeWhile, List.reverse_append, List.takeWhile_append_of_pos kept, stopped,
      List.append_nil, List.reverse_reverse]
  · rintro rfl
    refine ⟨_, List.rdropWhile_append_rtakeWhile.symm, ?_, ?_, ?_⟩
    · intro c last
      obtain ⟨given, rfl⟩ := List.mem_getLast?_eq_getLast last
      simpa [or_iff_not_imp_left] using List.rdropWhile_last_not _ _ given
    · intro member
      simpa using List.mem_rtakeWhile_imp member
    · intro member
      simpa using List.mem_rtakeWhile_imp member

theorem IsLastSegment.unique {segment other : List Char} (last : IsLastSegment s segment)
    (last' : IsLastSegment s other) : segment = other :=
  (isLastSegment_iff.mp last).symm.trans (isLastSegment_iff.mp last')

/-- The texts that have another last segment than local part. -/
inductive Miscut (s : List Char) : Prop
  /-- The last segment is empty, as no local part is. -/
  | endsOpen (last : s.getLast? = some '#' ∨ s.getLast? = some '/')
  /-- The local part is the whole fragment. -/
  | slashInFragment {front fragment : List Char} (parts : s = front ++ '#' :: fragment)
      (last : '#' ∉ fragment) (slash : '/' ∈ fragment)
  /-- The last segment is the whole text, and something follows the last colon. -/
  | unseparated (numberSign : '#' ∉ s) (slash : '/' ∉ s) (followed : s.getLast? ≠ some ':')

theorem Miscut.not_isLastSegment (miscut : Miscut s) (colon : ':' ∈ s) :
    ¬ IsLastSegment s (localPart s) := by
  rintro ⟨before, parts, ends, numberSign, slash⟩
  cases miscut with
  | endsOpen last =>
    have given : localPart s ≠ [] := localPart_ne_nil (List.ne_nil_of_mem colon)
    rw [parts, List.getLast?_append_of_ne_nil _ given] at last
    rcases last with last | last
    · exact numberSign (List.mem_of_getLast? last)
    · exact slash (List.mem_of_getLast? last)
  | slashInFragment parts last within =>
    rw [parts, localPart_of_last [] ['/', ':'] rfl nofun last (List.ne_nil_of_mem within)] at slash
    exact slash within
  | unseparated noSign noSlash followed =>
    have whole : IsLastSegment s s := ⟨[], rfl, nofun, noSign, noSlash⟩
    have same := IsLastSegment.unique ⟨before, parts, ends, numberSign, slash⟩ whole
    obtain ⟨front, rest, rfl, last⟩ := Components.exists_last colon
    have given : rest ≠ [] := by
      rintro rfl
      exact followed List.getLast?_concat
    have absent : ∀ c ∈ ['#', '/'], c ∉ front ++ ':' :: rest :=
      List.forall_mem_cons.mpr ⟨noSign, List.forall_mem_singleton.mpr noSlash⟩
    rw [localPart_of_last ['#', '/'] [] rfl absent last given] at same
    have lengths := congrArg List.length same
    rw [List.length_append, List.length_cons] at lengths
    omega

private theorem isLastSegment_of_not_miscut (fits : ¬ Miscut s) (colon : ':' ∈ s) :
    IsLastSegment s (localPart s) := by
  have closed (front : List Char) : s ≠ front ++ ['#'] ∧ s ≠ front ++ ['/'] := by
    constructor
    · rintro rfl
      exact fits (.endsOpen (.inl List.getLast?_concat))
    · rintro rfl
      exact fits (.endsOpen (.inr List.getLast?_concat))
  by_cases numberSign : '#' ∈ s
  · obtain ⟨front, rest, parts, last⟩ := Components.exists_last numberSign
    have given : rest ≠ [] := fun none => (closed front).1 (none ▸ parts)
    have slash : '/' ∉ rest := fun within => fits (.slashInFragment parts last within)
    rw [parts, localPart_of_last [] ['/', ':'] rfl nofun last given]
    exact ⟨front ++ ['#'], by simp, by simp, last, slash⟩
  by_cases slash : '/' ∈ s
  · obtain ⟨front, rest, rfl, last⟩ := Components.exists_last slash
    have given : rest ≠ [] := fun none => (closed front).2 (none ▸ rfl)
    rw [localPart_of_last ['#'] [':'] rfl (by simpa using numberSign) last given]
    exact ⟨front ++ ['/'], by simp, by simp, fun within => numberSign (by simp [within]), last⟩
  · have last : s.getLast? = some ':' := by
      by_contra followed
      exact fits (.unseparated numberSign slash followed)
    obtain ⟨front, rfl⟩ := List.getLast?_eq_some_iff.mp last
    have whole : localPart (front ++ [':']) = front ++ [':'] := by
      rw [localPart_eq_self_iff]
      simp only [List.forall_mem_cons]
      exact ⟨tail?_eq_none numberSign, tail?_eq_none slash, tail?_concat, nofun⟩
    rw [whole]
    exact ⟨[], rfl, nofun, numberSign, slash⟩

theorem isLastSegment_localPart_iff (colon : ':' ∈ s) :
    IsLastSegment s (localPart s) ↔ ¬ Miscut s :=
  ⟨fun last miscut => miscut.not_isLastSegment colon last,
    fun fits => isLastSegment_of_not_miscut fits colon⟩

private theorem Miscut.localPart_ne_self (miscut : Miscut s) (colon : ':' ∈ s) :
    localPart s ≠ s := by
  intro whole
  have untailed := localPart_eq_self_iff.mp whole
  have last := getLast?_of_tail?_eq_none (untailed ':' (by simp)) colon
  have absent : ∀ separator ∈ ['#', '/'], separator ∉ s := by
    intro separator listed member
    have tailless := untailed separator (List.mem_append_left [':'] listed)
    obtain rfl := Option.some.inj (last.symm.trans (getLast?_of_tail?_eq_none tailless member))
    simp at listed
  refine miscut.not_isLastSegment colon ?_
  rw [whole]
  exact ⟨[], rfl, nofun, absent '#' (by simp), absent '/' (by simp)⟩

/-! ## Schemes -/

namespace Components

private theorem areAbsolute_withScheme {p : Components} {scheme : List Char}
    (absolute : p.areAbsolute = true) (valid : isScheme scheme = true) :
    { p with scheme := some scheme }.areAbsolute = true := by
  simp only [areAbsolute, Bool.and_eq_true] at absolute ⊢
  obtain ⟨⟨⟨⟨-, authority⟩, path⟩, query⟩, fragment⟩ := absolute
  exact ⟨⟨⟨⟨valid, authority⟩, path⟩, query⟩, fragment⟩

end Components

private theorem isScheme_cons {c : Char} {scheme : List Char} (letter : c.isAlpha = true)
    (valid : isScheme scheme = true) : isScheme (c :: scheme) = true := by
  cases scheme with
  | nil => cases valid
  | cons d scheme =>
    simp only [isScheme, Bool.and_eq_true] at valid ⊢
    refine ⟨letter, ?_⟩
    rw [List.all_cons, valid.2, Char.isAlphanum, valid.1]
    rfl

private theorem exists_scheme_of_isAbsolute (absolute : isAbsolute s = true) :
    ∃ scheme, (Components.ofText s).scheme = some scheme ∧ isScheme scheme = true := by
  simp only [isAbsolute, Components.areAbsolute, Bool.and_eq_true, Option.any_eq_true] at absolute
  obtain ⟨scheme, given, valid⟩ := absolute.1.1.1.1
  exact ⟨scheme, given, valid⟩

theorem colon_mem_of_isAbsolute (absolute : isAbsolute s = true) : ':' ∈ s := by
  obtain ⟨scheme, given, -⟩ := exists_scheme_of_isAbsolute absolute
  rw [← Components.toText_ofText s]
  simp [Components.toText, given]

private theorem isAbsolute_cons {c : Char} (letter : c.isAlpha = true)
    (absolute : isAbsolute s = true) :
    isAbsolute (c :: s) = true := by
  obtain ⟨scheme, given, valid⟩ := exists_scheme_of_isAbsolute absolute
  have plain : c ∉ [':', '/', '?', '#'] :=
    Components.not_mem_of_isSchemeChar (by rw [Char.isAlphanum, letter]; rfl)
  rw [isAbsolute, Components.ofText_cons plain given]
  exact Components.areAbsolute_withScheme absolute (isScheme_cons letter valid)

theorem exists_same_localName {iri : Iri} (miscut : Miscut iri.text.toList) :
    ∃ other : Iri, other ≠ iri ∧ other.localName = iri.localName := by
  have colon := colon_mem_of_isAbsolute iri.absolute
  have absolute : isAbsolute (String.ofList ('x' :: iri.text.toList)).toList = true := by
    rw [String.toList_ofList]
    exact isAbsolute_cons (by decide) iri.absolute
  refine ⟨⟨_, absolute⟩, ?_, ?_⟩
  · intro same
    have characters := congrArg (·.text.toList.length) same
    simp at characters
  · rw [localName, localName, String.toList_ofList,
      localPart_cons (by decide) (miscut.localPart_ne_self colon)]

end ContentImport.Iri
