import ContentImport.Iri.Grammar
import Mathlib.Data.List.Infix
import Mathlib.Data.List.TakeWhile

/-!
The components of a reference, told apart by the delimiters that none of them holds.
-/

set_option autoImplicit false
set_option relaxedAutoImplicit false

namespace ContentImport.Iri.Components

/-- No component holds what ends it, and a path behind an authority begins with a slash. -/
structure Separated (p : Components) : Prop where
  scheme : ∀ s ∈ p.scheme, ∀ c ∈ s, c ∉ [':', '/', '?', '#']
  authority : ∀ a ∈ p.authority, ∀ c ∈ a, c ∉ ['/', '?', '#']
  rooted : p.authority.isSome → p.path = [] ∨ p.path.head? = some '/'
  path : ∀ c ∈ p.path, c ∉ ['?', '#']
  query : ∀ q ∈ p.query, '#' ∉ q

theorem exists_last {delimiter : Char} {s : List Char} (member : delimiter ∈ s) :
    ∃ front rest, s = front ++ delimiter :: rest ∧ delimiter ∉ rest := by
  obtain ⟨rest, front, parts, plain⟩ := List.eq_append_cons_of_mem (List.mem_reverse.mpr member)
  refine ⟨front.reverse, rest.reverse, ?_, by rwa [List.mem_reverse]⟩
  rw [← List.reverse_reverse s, parts]
  simp

private theorem stop_of_mem_cut {stop : Char → Bool} {s : List Char} {c : Char}
    (member : c ∈ (cut stop s).1) : stop c = false := by
  simpa using List.mem_takeWhile_imp member

private theorem head?_cut {stop : Char → Bool} {s : List Char} :
    ∀ c ∈ (cut stop s).2.head?, stop c = true := by
  have front := List.head?_dropWhile_not (!stop ·) s
  intro c first
  rw [cut] at first
  rw [first] at front
  simpa using front

private theorem query_cutQuery (s : List Char) : ∀ q ∈ (cutQuery s).1, '#' ∉ q := by
  unfold cutQuery
  split
  · rintro _ ⟨⟩ member
    exact absurd (stop_of_mem_cut member) (by decide)
  · exact nofun

private theorem path_cut {s : List Char} :
    ∀ c ∈ (cut (fun c => c == '?' || c == '#') s).1, c ∉ ['?', '#'] := by
  intro c member
  simpa using stop_of_mem_cut member

private theorem path_behind_authority (rest : List Char) :
    (cut (fun c => c == '?' || c == '#') (cut (fun c => c == '/' || (c == '?' || c == '#'))
      rest).2).1 = [] ∨
    (cut (fun c => c == '?' || c == '#') (cut (fun c => c == '/' || (c == '?' || c == '#'))
      rest).2).1.head? = some '/' := by
  have ends := @head?_cut (fun c => c == '/' || (c == '?' || c == '#')) rest
  generalize (cut (fun c => c == '/' || (c == '?' || c == '#')) rest).2 = behind at ends
  cases behind with
  | nil => exact .inl rfl
  | cons c behind =>
    have first := ends c rfl
    simp only [Bool.or_eq_true, beq_iff_eq] at first
    rcases first with rfl | rfl | rfl
    · exact .inr rfl
    · exact .inl rfl
    · exact .inl rfl

private theorem separated_cutHierarchy {scheme : Option (List Char)} (s : List Char)
    (plain : ∀ s ∈ scheme, ∀ c ∈ s, c ∉ [':', '/', '?', '#']) :
    (cutHierarchy scheme s).Separated := by
  unfold cutHierarchy
  split
  · next rest =>
    refine ⟨plain, ?_, fun _ => path_behind_authority rest, path_cut, query_cutQuery _⟩
    rintro _ ⟨⟩ c member
    simpa using stop_of_mem_cut member
  · exact ⟨plain, nofun, nofun, path_cut, query_cutQuery _⟩

theorem separated_ofText (s : List Char) : (ofText s).Separated := by
  unfold ofText
  split
  · next c scheme rest parts =>
    refine separated_cutHierarchy rest ?_
    rintro _ ⟨⟩ d member
    have within : d ∈ (cut (fun c => c == ':' || c == '/' || c == '?' || c == '#') s).1 := by
      rwa [parts]
    simpa [and_assoc] using stop_of_mem_cut within
  · exact separated_cutHierarchy s nofun

/-! ## Schemes -/

private theorem cutHierarchy_eq (scheme : Option (List Char)) (s : List Char) :
    cutHierarchy scheme s = { cutHierarchy none s with scheme := scheme } := by
  unfold cutHierarchy
  split <;> rfl

theorem scheme_cutHierarchy (scheme : Option (List Char)) (s : List Char) :
    (cutHierarchy scheme s).scheme = scheme := by
  rw [cutHierarchy_eq]

theorem not_mem_of_isSchemeChar {c : Char}
    (allowed : (c.isAlphanum || c ∈ ['+', '-', '.']) = true) : c ∉ [':', '/', '?', '#'] := by
  intro member
  simp only [List.mem_cons, List.not_mem_nil, or_false] at member
  rcases member with rfl | rfl | rfl | rfl <;> exact absurd allowed (by decide)

theorem ofText_cons {c : Char} {s scheme : List Char} (plain : c ∉ [':', '/', '?', '#'])
    (given : (ofText s).scheme = some scheme) :
    ofText (c :: s) = { ofText s with scheme := some (c :: scheme) } := by
  unfold ofText at given ⊢
  split at given
  · next d front rest parts =>
    have longer : cut (fun c => c == ':' || c == '/' || c == '?' || c == '#') (c :: s) =
        (c :: d :: front, ':' :: rest) := by
      have kept : (!(c == ':' || c == '/' || c == '?' || c == '#')) = true := by
        simpa [and_assoc] using plain
      rw [cut, Prod.mk.injEq] at parts
      rw [cut, List.takeWhile_cons, if_pos kept, List.dropWhile_cons, if_pos kept, parts.1, parts.2]
    rw [scheme_cutHierarchy, Option.some.injEq] at given
    rw [longer, cutHierarchy_eq (some (d :: front)), ← given]
    exact cutHierarchy_eq (some (c :: d :: front)) rest
  · rw [scheme_cutHierarchy] at given
    cases given

/-! ## Texts of components -/

/-- Scheme and authority as they are written. -/
def stem (p : Components) : List Char :=
  (p.scheme.map (· ++ [':'])).getD [] ++ (p.authority.map ('/' :: '/' :: ·)).getD []

/-- Query and fragment as they are written. -/
def tail (p : Components) : List Char :=
  (p.query.map ('?' :: ·)).getD [] ++ (p.fragment.map ('#' :: ·)).getD []

theorem toText_eq (p : Components) : p.toText = p.stem ++ (p.path ++ p.tail) := by
  simp only [toText, stem, tail, List.append_assoc]

theorem toText_withoutFragment (p : Components) :
    p.toText = { p with fragment := none }.toText ++ (p.fragment.map ('#' :: ·)).getD [] := by
  simp [toText]

theorem Separated.takeWhile_toText {p : Components} (separated : p.Separated) :
    p.toText.takeWhile (· ≠ '#') = { p with fragment := none }.toText := by
  have plain : ∀ c ∈ { p with fragment := none }.toText, decide (c ≠ '#') = true := by
    rintro _ member
    rw [decide_eq_true_iff]
    rintro rfl
    simp only [toText, List.mem_append, Option.map_none, Option.getD_none, List.not_mem_nil,
      or_false] at member
    rcases member with ((scheme | authority) | path) | query
    · cases given : p.scheme with
      | none => simp [given] at scheme
      | some s =>
        have within : '#' ∈ s := by simpa [given] using scheme
        exact separated.scheme s given _ within (by simp)
    · cases given : p.authority with
      | none => simp [given] at authority
      | some a =>
        have within : '#' ∈ a := by simpa [given] using authority
        exact separated.authority a given _ within (by simp)
    · exact separated.path _ path (by simp)
    · cases given : p.query with
      | none => simp [given] at query
      | some q =>
        have within : '#' ∈ q := by simpa [given] using query
        exact separated.query q given within
  rw [toText_withoutFragment, List.takeWhile_append_of_pos plain]
  cases p.fragment <;> simp

theorem head?_tail (p : Components) : ∀ c ∈ p.tail.head?, c = '?' ∨ c = '#' := by
  obtain ⟨scheme, authority, path, query, fragment⟩ := p
  cases query with
  | some query =>
    rintro _ ⟨⟩
    exact .inl rfl
  | none =>
    cases fragment with
    | some fragment =>
      rintro _ ⟨⟩
      exact .inr rfl
    | none => exact nofun

theorem Separated.getLast?_stem {p : Components} (separated : p.Separated) :
    p.stem.getLast? = some '/' ↔ p.authority = some [] := by
  obtain ⟨scheme, authority, path, query, fragment⟩ := p
  cases authority with
  | none => cases scheme <;> simp [stem]
  | some authority =>
    rcases List.eq_nil_or_concat' authority with rfl | ⟨front, c, rfl⟩
    · cases scheme <;> simp [stem]
    · have plain := separated.authority _ rfl c (by simp)
      have differs : c ≠ '/' := by
        rintro rfl
        exact plain (by simp)
      simp [stem, List.getLast?_append, List.getLast?_cons, differs]

end ContentImport.Iri.Components
