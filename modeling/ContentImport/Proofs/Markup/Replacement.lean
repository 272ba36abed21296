import ContentImport.Markup.Reference

/-!
References put in place part by part. One character is taken at a time; what a text becomes is made
of what its parts become where no reference is across their ends, and text without references stays
as it is.
-/

set_option autoImplicit false
set_option relaxedAutoImplicit false

namespace ContentImport.Markup.Reference

variable {entities : Entities} {begun next : Option (List Char)} {c : Char}
  {out rest whole : List Char}

/-- What one character gives, and the name of the reference that is open behind it. -/
def advance (entities : Entities) :
    Option (List Char) → Char → Except Fault (List Char × Option (List Char))
  | none, c => .ok (if c = '&' then ([], some []) else ([c], none))
  | some name, c =>
    if c = ';' then
      match text? entities name.reverse with
      | none => .error .unknownReference
      | some text => .ok (text, none)
    else if c = '&' then .error .malformedReference
    else .ok ([], some (c :: name))

private theorem expandFrom_cons :
    expandFrom entities begun (c :: rest) =
      match advance entities begun c with
      | .error fault => .error fault
      | .ok (out, next) => (expandFrom entities next rest).map (out ++ ·) := by
  have same (begun : Option (List Char)) :
      (expandFrom entities begun rest).map ([] ++ ·) = expandFrom entities begun rest := by
    cases expandFrom entities begun rest <;> rfl
  cases begun with
  | none =>
    rw [expandFrom, advance]
    by_cases opens : c = '&'
    · simp only [if_pos opens, same]
    · simp only [if_neg opens, List.singleton_append]
  | some name =>
    rw [expandFrom, advance]
    by_cases ends : c = ';'
    · simp only [if_pos ends]
      cases text? entities name.reverse <;> rfl
    · by_cases opens : c = '&'
      · simp only [if_neg ends, if_pos opens]
      · simp only [if_neg ends, if_neg opens, same]

private theorem expandFrom_of_advance (stepped : advance entities begun c = .ok (out, next))
    (rest : List Char) :
    expandFrom entities begun (c :: rest) = (expandFrom entities next rest).map (out ++ ·) := by
  rw [expandFrom_cons, stepped]

private theorem exists_of_expandFrom_cons
    (expanded : expandFrom entities begun (c :: rest) = .ok whole) :
    ∃ out next later, advance entities begun c = .ok (out, next) ∧
      expandFrom entities next rest = .ok later ∧ whole = out ++ later := by
  rw [expandFrom_cons] at expanded
  cases stepped : advance entities begun c with
  | error fault => rw [stepped] at expanded; cases expanded
  | ok outcome =>
    obtain ⟨out, next⟩ := outcome
    simp only [stepped] at expanded
    cases inner : expandFrom entities next rest with
    | error fault => rw [inner] at expanded; cases expanded
    | ok later =>
      rw [inner] at expanded
      exact ⟨out, next, later, rfl, inner, (Except.ok.inj expanded).symm⟩

theorem expandFrom_append {front text : List Char}
    (expanded : expandFrom entities begun front = .ok text) (rest : List Char) :
    expandFrom entities begun (front ++ rest) = (expandFrom entities none rest).map (text ++ ·) := by
  induction front generalizing begun text with
  | nil =>
    cases begun with
    | none =>
      obtain rfl := Except.ok.inj expanded
      rw [List.nil_append]
      cases expandFrom entities none rest <;> rfl
    | some name => cases expanded
  | cons c front ih =>
    obtain ⟨out, next, later, stepped, inner, rfl⟩ := exists_of_expandFrom_cons expanded
    rw [List.cons_append, expandFrom_of_advance stepped, ih inner]
    cases expandFrom entities none rest <;> simp [Except.map]

theorem expand_plain {plain : List Char} (ordinary : '&' ∉ plain) :
    expand entities plain = .ok plain := by
  rw [expand]
  induction plain with
  | nil => rfl
  | cons c plain ih =>
    obtain ⟨differ, others⟩ := not_or.mp (mt List.mem_cons.mpr ordinary)
    rw [expandFrom, if_neg (Ne.symm differ), ih others]
    rfl

private theorem not_expandFrom_open {plain : List Char} (ordinary : ∀ c ∈ plain, c ≠ '&' ∧ c ≠ ';')
    (name : List Char) : expandFrom entities (some name) plain ≠ .ok whole := by
  induction plain generalizing name with
  | nil => exact nofun
  | cons c plain ih =>
    obtain ⟨first, others⟩ := List.forall_mem_cons.mp ordinary
    rw [expandFrom, if_neg first.2, if_neg first.1]
    exact ih others _

theorem exists_of_expandFrom_append {plain : List Char} (ordinary : ∀ c ∈ plain, c ≠ '&' ∧ c ≠ ';')
    {s : List Char} (expanded : expandFrom entities begun (s ++ plain) = .ok whole) :
    ∃ text, expandFrom entities begun s = .ok text ∧ whole = text ++ plain := by
  induction s generalizing begun whole with
  | nil =>
    cases begun with
    | none =>
      have same : expand entities plain = .ok plain :=
        expand_plain fun member => (ordinary _ member).1 rfl
      exact ⟨[], rfl, Except.ok.inj (expanded.symm.trans same)⟩
    | some name => exact absurd expanded (not_expandFrom_open ordinary name)
  | cons c s ih =>
    rw [List.cons_append] at expanded
    obtain ⟨out, next, later, stepped, inner, rfl⟩ := exists_of_expandFrom_cons expanded
    obtain ⟨text, alone, rfl⟩ := ih inner
    rw [expandFrom_of_advance stepped, alone]
    exact ⟨out ++ text, rfl, (List.append_assoc _ _ _).symm⟩

private theorem expandFrom_name {name : List Char} (ordinary : ∀ c ∈ name, c ≠ '&' ∧ c ≠ ';')
    {read text : List Char} (meant : text? entities (read.reverse ++ name) = some text)
    (rest : List Char) :
    expandFrom entities (some read) (name ++ ';' :: rest) =
      (expandFrom entities none rest).map (text ++ ·) := by
  induction name generalizing read with
  | nil =>
    rw [List.append_nil] at meant
    rw [List.nil_append, expandFrom, if_pos rfl, meant]
  | cons c name ih =>
    obtain ⟨first, others⟩ := List.forall_mem_cons.mp ordinary
    rw [List.cons_append, expandFrom, if_neg first.2, if_neg first.1]
    exact ih others (by simpa using meant)

theorem text?_eq_entity? {name : List Char} (named : ∀ ds, name ≠ '#' :: ds) :
    text? entities name = entity? entities name := by
  unfold text?
  split
  · next ds => exact absurd rfl (named ds)
  · rfl

theorem expand_reference {front back shown behind name text : List Char}
    (ordinary : ∀ c ∈ name, c ≠ '&' ∧ c ≠ ';') (meant : text? entities name = some text)
    (before : expand entities front = .ok shown) (after : expand entities back = .ok behind) :
    expand entities (front ++ '&' :: (name ++ ';' :: back)) = .ok (shown ++ (text ++ behind)) := by
  rw [expand] at before after ⊢
  rw [expandFrom_append before, expandFrom, if_pos rfl, expandFrom_name ordinary meant, after]
  rfl

/-- Entities that do not contradict each other give one text. -/
theorem expandFrom_unique {entities' : Entities}
    (agree : ∀ name s s', entity? entities name = some s → entity? entities' name = some s' → s = s')
    {s text text' : List Char} (expanded : expandFrom entities begun s = .ok text)
    (expanded' : expandFrom entities' begun s = .ok text') : text = text' := by
  have meanings (name t t' : List Char) (meant : text? entities name = some t)
      (meant' : text? entities' name = some t') : t = t' := by
    by_cases numbered : ∃ ds, name = '#' :: ds
    · obtain ⟨ds, rfl⟩ := numbered
      exact Option.some.inj (meant.symm.trans meant')
    · rw [text?_eq_entity? fun ds same => numbered ⟨ds, same⟩] at meant meant'
      exact agree name t t' meant meant'
  have steps (begun : Option (List Char)) (c : Char) (a a' : List Char × Option (List Char))
      (stepped : advance entities begun c = .ok a) (stepped' : advance entities' begun c = .ok a') :
      a = a' := by
    cases begun with
    | none => exact Except.ok.inj (stepped.symm.trans stepped')
    | some name =>
      rw [advance] at stepped stepped'
      by_cases ends : c = ';'
      · rw [if_pos ends] at stepped stepped'
        cases meant : text? entities name.reverse with
        | none => rw [meant] at stepped; cases stepped
        | some t =>
          cases meant' : text? entities' name.reverse with
          | none => rw [meant'] at stepped'; cases stepped'
          | some t' =>
            rw [meant] at stepped
            rw [meant', ← meanings _ _ _ meant meant'] at stepped'
            exact Except.ok.inj (stepped.symm.trans stepped')
      · rw [if_neg ends] at stepped stepped'
        exact Except.ok.inj (stepped.symm.trans stepped')
  induction s generalizing begun text text' with
  | nil =>
    cases begun with
    | none => exact Except.ok.inj (expanded.symm.trans expanded')
    | some name => cases expanded
  | cons c s ih =>
    obtain ⟨out, next, later, stepped, rest, rfl⟩ := exists_of_expandFrom_cons expanded
    obtain ⟨out', next', later', stepped', rest', rfl⟩ := exists_of_expandFrom_cons expanded'
    obtain ⟨rfl, rfl⟩ := Prod.mk.inj (steps _ _ _ _ stepped stepped')
    rw [ih rest rest']

end ContentImport.Markup.Reference
