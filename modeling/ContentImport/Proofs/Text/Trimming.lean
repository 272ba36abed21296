import ContentImport.Text.Blank
import Mathlib.Data.List.DropRight

/-!
Characters that are lost from a text, and the text between its first and its last character that is
no white space. That core stays as it is where each lost character has white space alone on one of
its sides, and only there.
-/

set_option autoImplicit false
set_option relaxedAutoImplicit false

namespace ContentImport.Text

/-! ## The core of a list -/

section Core

variable {α : Type} (blank keep : α → Bool)

/-- A list without the members of a class at its ends. -/
def core (l : List α) : List α :=
  (l.dropWhile blank).rdropWhile blank

variable {blank keep} {l : List α}

private theorem filter_dropWhile (ink : ∀ x ∈ l, blank x = false → keep x = true) :
    (l.filter keep).dropWhile blank = (l.dropWhile blank).filter keep := by
  induction l with
  | nil => rfl
  | cons x l ih =>
    obtain ⟨first, others⟩ := List.forall_mem_cons.mp ink
    cases shown : blank x with
    | false => simp [shown, first shown]
    | true =>
      cases kept : keep x <;> simp [shown, kept, ih others]

private theorem core_filter (ink : ∀ x ∈ l, blank x = false → keep x = true) :
    core blank (l.filter keep) = (core blank l).filter keep := by
  have turned : ∀ x ∈ (l.dropWhile blank).reverse, blank x = false → keep x = true := by
    intro x member
    exact ink x ((List.dropWhile_sublist blank).mem (List.mem_reverse.mp member))
  rw [core, core, filter_dropWhile ink, List.rdropWhile, List.rdropWhile, ← List.filter_reverse,
    filter_dropWhile turned, List.filter_reverse]

private theorem core_sublist (blank : α → Bool) (l : List α) : (core blank l).Sublist l :=
  (List.rdropWhile_prefix blank _).sublist.trans (List.dropWhile_sublist blank)

private theorem core_map {β : Type} (blank : β → Bool) (f : α → β) (l : List α) :
    core blank (l.map f) = (core (fun x => blank (f x)) l).map f := by
  rw [core, core, List.dropWhile_map, List.rdropWhile, List.rdropWhile, ← List.map_reverse,
    List.dropWhile_map, List.map_reverse]
  rfl

private theorem mem_core_append_cons {before behind : List α} {x : α}
    (front : ¬ ∀ y ∈ before, blank y = true) (back : ¬ ∀ y ∈ behind, blank y = true) :
    x ∈ core blank (before ++ x :: behind) := by
  have first : before.dropWhile blank ≠ [] := fun none => front (List.dropWhile_eq_nil_iff.mp none)
  have last : behind.reverse.dropWhile blank ≠ [] := by
    intro none
    exact back fun y member => List.dropWhile_eq_nil_iff.mp none y (List.mem_reverse.mpr member)
  have whole : core blank (before ++ x :: behind) =
      before.dropWhile blank ++ x :: behind.rdropWhile blank := by
    rw [core, List.dropWhile_append, if_neg (by simpa using first), List.rdropWhile,
      List.reverse_append, List.reverse_cons, List.append_assoc, List.dropWhile_append,
      if_neg (by simpa using last), List.rdropWhile]
    simp
  rw [whole]
  exact List.mem_append_right _ List.mem_cons_self

private theorem exists_of_mem_core {x : α} (member : x ∈ core blank l) (shown : blank x = true) :
    ∃ before behind, l = before ++ x :: behind ∧ (∃ y ∈ before, blank y = false) ∧
      ∃ y ∈ behind, blank y = false := by
  obtain ⟨before, behind, split⟩ := List.append_of_mem member
  obtain ⟨trail, trailing⟩ := List.rdropWhile_prefix blank (l.dropWhile blank)
  have inner : l.dropWhile blank = before ++ x :: (behind ++ trail) := by
    rw [← trailing, ← core, split, List.append_assoc, List.cons_append]
  -- Neither the first member of the core is a blank nor the last one, so the member is between them.
  refine ⟨l.takeWhile blank ++ before, behind ++ trail, ?_, ?_, ?_⟩
  · rw [List.append_assoc, ← inner, List.takeWhile_append_dropWhile]
  · have head := List.head?_dropWhile_not blank l
    rw [inner] at head
    cases before with
    | nil => rw [List.nil_append] at head; exact absurd shown (by simpa using head)
    | cons y before => exact ⟨y, by simp, by simpa using head⟩
  · have last : ∀ nonempty : core blank l ≠ [], ¬ blank ((core blank l).getLast nonempty) = true :=
      List.rdropWhile_last_not blank (l.dropWhile blank)
    rw [split] at last
    cases behind using List.reverseRecOn with
    | nil => exact absurd shown (by simpa using last)
    | append_singleton behind y =>
      refine ⟨y, by simp, ?_⟩
      rw [← List.cons_append, ← List.append_assoc] at last
      simpa using last (by simp)

private theorem forall_mem_core_iff (ink : ∀ x ∈ l, blank x = false → keep x = true) :
    (∀ x ∈ core blank l, keep x = true) ↔
      ∀ before x behind, l = before ++ x :: behind → keep x = false →
        (∀ y ∈ before, blank y = true) ∨ ∀ y ∈ behind, blank y = true := by
  constructor
  · rintro kept before x behind rfl lost
    by_contra! both
    obtain ⟨front, back⟩ := both
    have member : x ∈ core blank (before ++ x :: behind) :=
      mem_core_append_cons (by simpa using front) (by simpa using back)
    rw [kept x member] at lost
    cases lost
  · intro outside x member
    by_contra lost
    rw [Bool.not_eq_true] at lost
    have shown : blank x = true := by
      by_contra inked
      rw [Bool.not_eq_true] at inked
      rw [ink x ((core_sublist blank l).mem member) inked] at lost
      cases lost
    obtain ⟨before, behind, split, ⟨y, front, inked⟩, z, back, inked'⟩ :=
      exists_of_mem_core member shown
    rcases outside before x behind split lost with blanks | blanks
    · rw [blanks y front] at inked; cases inked
    · rw [blanks z back] at inked'; cases inked'

end Core

private theorem trimEndBy_eq_rdropWhile (drop : Char → Bool) (s : List Char) :
    trimEndBy drop s = s.rdropWhile drop := by
  induction s with
  | nil => rfl
  | cons c s ih =>
    rw [trimEndBy, ih, List.rdropWhile, List.rdropWhile, List.reverse_cons, List.dropWhile_append]
    cases s.reverse.dropWhile drop with
    | nil => cases kept : drop c <;> simp [kept]
    | cons d rest => simp

private theorem trimBy_eq_core (drop : Char → Bool) (s : List Char) : trimBy drop s = core drop s :=
  trimEndBy_eq_rdropWhile drop (s.dropWhile drop)

/-! ## Lost characters -/

/-- There is nothing but white space. -/
def IsBlankText (s : List Char) : Prop :=
  ∀ c ∈ s, isMarkupBlank c = true

/-- Characters stand with whether they are kept. What is kept has the text between the first and the
last character that is no white space where each lost one has white space alone on one of its
sides. -/
theorem trimBy_kept_iff {marks : List (Char × Bool)}
    (lost : ∀ m ∈ marks, m.2 = false → isMarkupBlank m.1 = true) :
    trimBy isMarkupBlank ((marks.filter (·.2)).map (·.1)) =
        trimBy isMarkupBlank (marks.map (·.1)) ↔
      ∀ before m behind, marks = before ++ m :: behind → m.2 = false →
        IsBlankText (before.map (·.1)) ∨ IsBlankText (behind.map (·.1)) := by
  have ink : ∀ m ∈ marks, isMarkupBlank m.1 = false → m.2 = true := by
    intro m member shown
    by_contra dropped
    rw [lost m member (by simpa using dropped)] at shown
    cases shown
  have whole : (core (fun m => isMarkupBlank m.1) marks).filter (·.2) =
      core (fun m => isMarkupBlank m.1) marks ↔
        ∀ m ∈ core (fun m => isMarkupBlank m.1) marks, m.2 = true := List.filter_eq_self
  have blanks (l : List (Char × Bool)) :
      IsBlankText (l.map (·.1)) ↔ ∀ m ∈ l, isMarkupBlank m.1 = true := List.forall_mem_map
  simp only [blanks]
  rw [trimBy_eq_core, trimBy_eq_core, core_map, core_map, core_filter ink,
    ← forall_mem_core_iff ink, ← whole]
  constructor
  · -- What is kept of the core is no longer than it, and as long only where all of it is kept.
    intro same
    refine List.filter_sublist.eq_of_length ?_
    simpa using congrArg List.length same
  · intro same
    rw [same]

@[simp] theorem isBlankText_append {s t : List Char} :
    IsBlankText (s ++ t) ↔ IsBlankText s ∧ IsBlankText t :=
  List.forall_mem_append

theorem forall_split_lost {lost : List Char} (blank : IsBlankText lost) (front rest : List Char) :
    (∀ before m behind, lost.map (·, false) = before ++ m :: behind → m.2 = false →
        IsBlankText (front ++ before.map (·.1)) ∨ IsBlankText (behind.map (·.1) ++ rest)) ↔
      (lost ≠ [] → IsBlankText front ∨ IsBlankText rest) := by
  constructor
  · intro each nonempty
    obtain ⟨c, others, rfl⟩ := List.exists_cons_of_ne_nil nonempty
    have first := each [] (c, false) (others.map (·, false)) rfl rfl
    rw [isBlankText_append, isBlankText_append] at first
    exact first.imp And.left And.right
  · intro outside before m behind split _
    have nonempty : lost ≠ [] := by
      rintro rfl
      exact absurd split.symm (by simp)
    have parts : lost = before.map (·.1) ++ m.1 :: behind.map (·.1) := by
      have texts := congrArg (List.map (·.1)) split
      simpa [Function.comp_def] using texts
    rw [parts] at blank
    obtain ⟨blankBefore, blankBehind⟩ := isBlankText_append.mp blank
    rw [isBlankText_append, isBlankText_append]
    refine (outside nonempty).imp (fun blankFront => ⟨blankFront, blankBefore⟩) ?_
    exact fun blankRest => ⟨(List.forall_mem_cons.mp blankBehind).2, blankRest⟩

theorem forall_split_kept (text : List Char)
    (P : List (Char × Bool) → Char × Bool → List (Char × Bool) → Prop) :
    ∀ before m behind, text.map (·, true) = before ++ m :: behind → m.2 = false →
      P before m behind := by
  intro before m behind split lost
  have member : m ∈ text.map (·, true) := split ▸ List.mem_append_right before List.mem_cons_self
  obtain ⟨c, -, rfl⟩ := List.mem_map.mp member
  cases lost

section Places

variable {α β : Type} {P : List β → β → List β → Prop}

theorem forall_split_append {l l' : List β} :
    (∀ before x behind, l ++ l' = before ++ x :: behind → P before x behind) ↔
      (∀ before x behind, l = before ++ x :: behind → P before x (behind ++ l')) ∧
        ∀ before x behind, l' = before ++ x :: behind → P (l ++ before) x behind := by
  constructor
  · intro all
    constructor
    · rintro before x behind rfl
      exact all before x (behind ++ l') (by simp)
    · rintro before x behind rfl
      exact all (l ++ before) x behind (by simp)
  · rintro ⟨first, second⟩ before x behind split
    rcases List.append_eq_append_iff.mp split with ⟨more, rfl, inner⟩ | ⟨more, inner, rest⟩
    · exact second more x behind inner
    · cases more with
      | nil =>
        have here : P (l ++ []) x behind := second [] x behind rest.symm
        rw [inner] at here
        simpa using here
      | cons y more =>
        obtain ⟨rfl, rfl⟩ := List.cons.inj rest
        exact first before x more inner

theorem forall_split_flatMap {f : α → List β} {l : List α} :
    (∀ before x behind, l.flatMap f = before ++ x :: behind → P before x behind) ↔
      ∀ front a rest, l = front ++ a :: rest → ∀ before x behind, f a = before ++ x :: behind →
        P (front.flatMap f ++ before) x (behind ++ rest.flatMap f) := by
  induction l generalizing P with
  | nil =>
    refine iff_of_true ?_ ?_ <;> intro before x behind split <;> exact absurd split.symm (by simp)
  | cons a l ih =>
    rw [List.flatMap_cons, forall_split_append, ih]
    constructor
    · rintro ⟨first, others⟩ front b rest split
      rcases List.cons_eq_append_iff.mp split with ⟨rfl, same⟩ | ⟨front, rfl, inner⟩
      · obtain ⟨rfl, rfl⟩ := List.cons.inj same
        exact first
      · intro before x behind inside
        simpa using others front b rest inner before x behind inside
    · intro each
      refine ⟨each [] a l rfl, ?_⟩
      rintro front b rest rfl before x behind inside
      simpa using each (a :: front) b rest rfl before x behind inside

end Places

end ContentImport.Text
