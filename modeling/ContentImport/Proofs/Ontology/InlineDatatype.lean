import ContentImport.Ontology.Term

/-!
Inline datatypes. A text may have a datatype behind it, set off by two carets. Main statement: of
every text what stands before the first such place is kept, of those behind which the line does not
end, and what is kept has no inline datatype itself.
-/

set_option autoImplicit false
set_option relaxedAutoImplicit false

namespace ContentImport.Ontology

/-- A datatype as it stands behind a text: two carets, after a quotation mark or not, and no line
feed up to the end. -/
inductive IsInlineDatatype : List Char → Prop
  | bare {name : List Char} (line : '\n' ∉ name) : IsInlineDatatype ('^' :: '^' :: name)
  | quoted {name : List Char} (line : '\n' ∉ name) : IsInlineDatatype ('"' :: '^' :: '^' :: name)

namespace IsInlineDatatype

variable {s rest : List Char}

private theorem ne_nil (typed : IsInlineDatatype s) : s ≠ [] := by
  rintro rfl
  cases typed

private theorem line (typed : IsInlineDatatype s) : '\n' ∉ s := by
  cases typed with
  | bare line => simpa using line
  | quoted line => simpa using line

private theorem append (typed : IsInlineDatatype s) (plain : '\n' ∉ rest) :
    IsInlineDatatype (s ++ rest) := by
  cases typed with
  | bare line => exact .bare (by simpa using ⟨line, plain⟩)
  | quoted line => exact .quoted (by simpa using ⟨line, plain⟩)

end IsInlineDatatype

private theorem isInlineDatatype_cons_iff {c : Char} {s : List Char} :
    IsInlineDatatype (c :: s) ↔ (opensTypeSuffix (c :: s) && !s.contains '\n') = true := by
  simp only [Bool.and_eq_true, Bool.not_eq_true', List.contains_eq_mem, decide_eq_false_iff_not]
  constructor
  · intro typed
    have line := List.not_mem_of_not_mem_cons typed.line
    cases typed <;> exact ⟨rfl, line⟩
  · rintro ⟨opens, line⟩
    unfold opensTypeSuffix at opens
    split at opens
    · next marked =>
      cases marked
      exact .quoted (by simpa using line)
    · next marked =>
      cases marked
      exact .bare (by simpa using line)
    · cases opens

/-- What of a text stands before its inline datatype, the longest of those that end the text, or the
whole text if none does. -/
inductive CutsTo (s : List Char) : List Char → Prop
  | typed {front datatype : List Char} (parts : s = front ++ datatype)
      (off : IsInlineDatatype datatype)
      (first : ∀ earlier rest, s = earlier ++ rest → IsInlineDatatype rest →
        front.length ≤ earlier.length) : CutsTo s front
  | plain (untyped : ∀ rest, rest <:+ s → ¬ IsInlineDatatype rest) : CutsTo s s

namespace CutsTo

private theorem cons {c : Char} {s front : List Char} (whole : ¬ IsInlineDatatype (c :: s))
    (cuts : CutsTo s front) : CutsTo (c :: s) (c :: front) := by
  cases cuts with
  | typed parts off first =>
    refine .typed (congrArg (c :: ·) parts) off fun earlier rest split datatype => ?_
    cases earlier with
    | nil => exact absurd (split ▸ datatype) whole
    | cons d earlier =>
      exact Nat.succ_le_succ (first earlier rest (List.cons.inj split).2 datatype)
  | plain untyped =>
    refine .plain fun rest ends datatype => ?_
    rcases List.suffix_cons_iff.mp ends with rfl | within
    · exact whole datatype
    · exact untyped rest within datatype

private theorem unique {s front other : List Char} (cuts : CutsTo s front)
    (cuts' : CutsTo s other) :
    front = other := by
  cases cuts with
  | typed parts off first =>
    cases cuts' with
    | typed parts' off' first' =>
      have length := Nat.le_antisymm (first _ _ parts' off') (first' _ _ parts off)
      exact List.append_inj_left (parts.symm.trans parts') length
    | plain untyped => exact absurd off (untyped _ ⟨front, parts.symm⟩)
  | plain untyped =>
    cases cuts' with
    | typed parts off first => exact absurd off (untyped _ ⟨other, parts.symm⟩)
    | plain _ => rfl

private theorem untyped {s front : List Char} (cuts : CutsTo s front) {rest : List Char}
    (ends : rest <:+ front) : ¬ IsInlineDatatype rest := by
  -- The cut uncovers no datatype: one that ended what is left would reach over the datatype
  -- that was cut off, and begin before it.
  cases cuts with
  | @typed front datatype parts off first =>
    intro typed
    obtain ⟨earlier, rfl⟩ := ends
    have earliest := first earlier (rest ++ datatype) (by rw [parts, List.append_assoc])
      (typed.append off.line)
    rw [List.length_append] at earliest
    have nothing : rest.length = 0 := by omega
    exact typed.ne_nil (List.eq_nil_of_length_eq_zero nothing)
  | plain untyped => exact untyped rest ends

end CutsTo

private theorem cutsTo_withoutTypeSuffix (s : List Char) : CutsTo s (withoutTypeSuffix s) := by
  induction s with
  | nil =>
    refine .plain fun rest ends typed => typed.ne_nil ?_
    exact List.suffix_nil.mp ends
  | cons c s ih =>
    rw [withoutTypeSuffix]
    split
    · next cut =>
      exact .typed rfl (isInlineDatatype_cons_iff.mpr cut) fun _ _ _ _ => Nat.zero_le _
    · next kept => exact ih.cons (mt isInlineDatatype_cons_iff.mp kept)

private theorem withoutTypeSuffix_eq_iff {s front : List Char} :
    withoutTypeSuffix s = front ↔ CutsTo s front :=
  ⟨fun same => same ▸ cutsTo_withoutTypeSuffix s, (cutsTo_withoutTypeSuffix s).unique⟩

private theorem withoutTypeSuffix_idem (s : List Char) :
    withoutTypeSuffix (withoutTypeSuffix s) = withoutTypeSuffix s :=
  withoutTypeSuffix_eq_iff.mpr (.plain fun _ ends => (cutsTo_withoutTypeSuffix s).untyped ends)

theorem stripTypeSuffix_idem (s : String) :
    stripTypeSuffix (stripTypeSuffix s) = stripTypeSuffix s := by
  rw [stripTypeSuffix, stripTypeSuffix, String.toList_ofList, withoutTypeSuffix_idem]

/-- A text is cut before the first inline datatype that ends it, once and for all. -/
theorem stripTypeSuffix_cuts_once (s : String) :
    (∀ result : String, stripTypeSuffix s = result ↔ CutsTo s.toList result.toList) ∧
      (∀ rest, rest <:+ (stripTypeSuffix s).toList → ¬ IsInlineDatatype rest) ∧
      stripTypeSuffix (stripTypeSuffix s) = stripTypeSuffix s := by
  have characters : (stripTypeSuffix s).toList = withoutTypeSuffix s.toList :=
    String.toList_ofList
  refine ⟨fun result => ?_, fun rest ends => ?_, stripTypeSuffix_idem s⟩
  · rw [← String.toList_inj, characters, withoutTypeSuffix_eq_iff]
  · rw [characters] at ends
    exact (cutsTo_withoutTypeSuffix s.toList).untyped ends

end ContentImport.Ontology
