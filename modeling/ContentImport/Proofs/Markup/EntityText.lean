import ContentImport.Proofs.Markup.InternalSubset
import ContentImport.Proofs.Markup.Replacement
import Mathlib.Data.List.Nodup

/-!
The text of an entity. By the grammar of markup it is the replacement text of the first declaration,
with the references in it replaced in turn; a reader has the value of the last declaration that is
written, as it stands there.
-/

set_option autoImplicit false
set_option relaxedAutoImplicit false

namespace ContentImport.Markup

namespace Reference

/-- Put characters in place of the references that number them, and leave references to entities;
the name of an open reference stands in reverse. -/
def numberedFrom : Option (List Char) → List Char → Except Fault (List Char)
  | none, [] => .ok []
  | some _, [] => .error .malformedReference
  | none, c :: rest =>
    if c = '&' then numberedFrom (some []) rest else (numberedFrom none rest).map (c :: ·)
  | some name, c :: rest =>
    if c = ';' then
      match name.reverse with
      | '#' :: ds =>
        match character? ds with
        | none => .error .unknownReference
        | some meant => (numberedFrom none rest).map (meant :: ·)
      | name => (numberedFrom none rest).map fun more => '&' :: (name ++ ';' :: more)
    else if c = '&' then .error .malformedReference
    else numberedFrom (some (c :: name)) rest

def replacement (value : List Char) : Except Fault (List Char) :=
  numberedFrom none value

private theorem replacement_plain {value : List Char} (plain : '&' ∉ value) :
    replacement value = .ok value := by
  rw [replacement]
  induction value with
  | nil => rfl
  | cons c value ih =>
    obtain ⟨differ, others⟩ := not_or.mp (mt List.mem_cons.mpr plain)
    rw [numberedFrom, if_neg (Ne.symm differ), ih others]
    rfl

example : (replacement "a&#65;&b;&amp;".toList).toOption = some "aA&b;&amp;".toList := by
  decide +kernel

end Reference

namespace Entities

variable {declared : List (List Char × List Char)} {name text text' value : List Char}

def first? (declared : List (List Char × List Char)) (name : List Char) : Option (List Char) :=
  (declared.find? (·.1 = name)).map (·.2)

def last? (declared : List (List Char × List Char)) (name : List Char) : Option (List Char) :=
  first? declared.reverse name

theorem mem_of_first? (found : first? declared name = some value) : (name, value) ∈ declared := by
  obtain ⟨entry, here, rfl⟩ := Option.map_eq_some_iff.mp found
  obtain rfl : entry.1 = name := by simpa using List.find?_some here
  exact List.mem_of_find?_eq_some here

/-- The text that stands for an entity, by its first declaration: the replacement text of its value,
in which each reference is replaced by what stands for it. No entity stands within itself, as its
text is made of those of others. -/
inductive StandsFor (declared : List (List Char × List Char)) : List Char → List Char → Prop
  | declaration {name value raw text : List Char} {inner : Entities}
      (first : first? declared name = some value) (replaced : Reference.replacement value = .ok raw)
      (each : ∀ entry ∈ inner, StandsFor declared entry.1 entry.2)
      (expanded : Reference.expand inner raw = .ok text) : StandsFor declared name text

namespace StandsFor

theorem of_plain (first : first? declared name = some value) (plain : '&' ∉ value) :
    StandsFor declared name value :=
  .declaration first (Reference.replacement_plain plain) (nofun : ∀ entry ∈ ([] : Entities), _)
    (Reference.expand_plain plain)

/-- One text stands for an entity. -/
theorem unique (standsFor : StandsFor declared name text)
    (standsFor' : StandsFor declared name text') : text = text' := by
  induction standsFor generalizing text' with
  | @declaration name value raw text inner first replaced each expanded ih =>
    obtain @⟨_, value', raw', _, inner', first', replaced', each', expanded'⟩ := standsFor'
    obtain rfl : value = value' := Option.some.inj (first.symm.trans first')
    obtain rfl : raw = raw' := Except.ok.inj (replaced.symm.trans replaced')
    -- The texts that the first derivation goes back to are those that the second one goes back to.
    refine Reference.expandFrom_unique ?_ expanded expanded'
    intro name s s' meant meant'
    rw [Reference.entity?] at meant meant'
    cases own : Reference.predefined? name with
    | some t =>
      rw [own] at meant meant'
      exact Option.some.inj (meant.symm.trans meant')
    | none =>
      rw [own, Option.none_or] at meant meant'
      exact ih (name, s) (mem_of_first? meant) (each' (name, s') (mem_of_first? meant'))

end StandsFor

theorem entity?_declare {entities : Entities} {doctype : Bytes}
    (last : last? (declarations (Text.Utf8.decodeLenient doctype)) name = some value)
    (own : Reference.predefined? name = none) :
    Reference.entity? (entities.declare doctype) name = some value := by
  rw [last?, first?, Option.map_eq_some_iff] at last
  obtain ⟨entry, found, rfl⟩ := last
  rw [Reference.entity?, own, declare, List.find?_append, found]
  rfl

theorem StandsFor.exists_first (standsFor : StandsFor declared name text) :
    ∃ value, first? declared name = some value := by
  obtain @⟨_, value, _, _, _, first, _, _, _⟩ := standsFor
  exact ⟨value, first⟩

theorem exists_last {written : List (List Char × List Char)} (listed : (name, value) ∈ written) :
    ∃ value, last? written name = some value := by
  have member : (name, value) ∈ written.reverse :=
    List.mem_reverse.mpr listed
  rw [last?, first?]
  cases found : written.reverse.find? (·.1 = name) with
  | some entry => exact ⟨entry.2, rfl⟩
  | none =>
    have differs := List.find?_eq_none.mp found _ member
    simp at differs

end Entities

end ContentImport.Markup
