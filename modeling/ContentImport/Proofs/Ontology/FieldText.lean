import ContentImport.Proofs.Calendar
import ContentImport.Proofs.Ontology.InlineDatatype

/-!
The text that a literal gives to a field, taken as a value again. A date is shown as itself, and a
text without its inline datatype has none. Only a date behind which an inline datatype stands takes
two steps: the datatype is cut off in the first, and the date is shown in the second.
-/

set_option autoImplicit false
set_option relaxedAutoImplicit false

namespace ContentImport.Ontology.Literal

/-! ## Dates -/

def date? (l : Literal) : Option Date :=
  if l.datatype = some xsdDateTime then Date.ofText? (Text.trimBy Text.isSpace l.value.toList)
  else none

private theorem fieldText_of_date {l : Literal} {d : Date} (dated : l.date? = some d) :
    l.fieldText = String.ofList d.toText := by
  rw [date?] at dated
  rw [fieldText, dated]

private theorem fieldText_of_undated {l : Literal} (undated : l.date? = none) :
    l.fieldText = stripTypeSuffix l.value := by
  rw [date?] at undated
  rw [fieldText, undated]

/-- The literal with the text that it gives to a field for its value. -/
def rendered (l : Literal) : Literal :=
  { l with value := l.fieldText }

private theorem date?_rendered {l : Literal} {d : Date} (dated : l.date? = some d) :
    l.rendered.date? = some d := by
  have shown := fieldText_of_date dated
  rw [date?] at dated
  split at dated
  · next stamp =>
    have made := Date.ofNumbers?_of_ofText? dated
    rw [rendered, shown, date?, if_pos stamp, String.toList_ofList, Date.trimBy_toText,
      Date.ofText?_toText made]
  · cases dated

private theorem fieldText_rendered_of_date {l : Literal} {d : Date} (dated : l.date? = some d) :
    l.rendered.fieldText = l.fieldText := by
  rw [fieldText_of_date dated, fieldText_of_date (date?_rendered dated)]

private theorem fieldText_rendered_of_undated {l : Literal} (undated : l.date? = none)
    (again : l.rendered.date? = none) : l.rendered.fieldText = l.fieldText := by
  rw [fieldText_of_undated again, rendered, fieldText_of_undated undated]
  exact stripTypeSuffix_idem l.value

/-- The value of a literal is no date as it stands, and without its inline datatype it is a date
that is shown in another form. -/
structure HidesDate (l : Literal) (d : Date) : Prop where
  undated : l.date? = none
  dated : date? { l with value := stripTypeSuffix l.value } = some d
  shown : String.ofList d.toText ≠ stripTypeSuffix l.value

/-- The text that a literal gives to a field gives itself again, unless an inline datatype hides a
date: then the text is the value without the datatype, and that gives the date. What is given the
second time is given ever after. -/
theorem fieldText_settles (l : Literal) :
    (l.rendered.fieldText = l.fieldText ↔ ¬ ∃ d, l.HidesDate d) ∧
      (∀ d, l.HidesDate d → l.fieldText = stripTypeSuffix l.value ∧
        l.rendered.fieldText = String.ofList d.toText) ∧
      l.rendered.rendered.fieldText = l.rendered.fieldText := by
  have hidden : ∀ d, l.HidesDate d → l.fieldText = stripTypeSuffix l.value ∧
      l.rendered.fieldText = String.ofList d.toText := by
    intro d hides
    have cut := fieldText_of_undated hides.undated
    refine ⟨cut, fieldText_of_date ?_⟩
    rw [rendered, cut]
    exact hides.dated
  refine ⟨⟨?_, ?_⟩, hidden, ?_⟩
  · rintro settled ⟨d, hides⟩
    obtain ⟨cut, date⟩ := hidden d hides
    exact hides.shown (date.symm.trans (settled.trans cut))
  · intro plain
    cases dated : l.date? with
    | some d => exact fieldText_rendered_of_date dated
    | none =>
      have cut := fieldText_of_undated dated
      cases again : l.rendered.date? with
      | none => exact fieldText_rendered_of_undated dated again
      | some d =>
        rw [fieldText_of_date again, cut]
        by_contra differs
        refine plain ⟨d, dated, ?_, differs⟩
        rwa [rendered, cut] at again
  · cases again : l.rendered.date? with
    | some d => exact fieldText_rendered_of_date again
    | none =>
      -- The first rendering was no date either, since dates are shown as themselves.
      have undated : l.date? = none := by
        cases dated : l.date? with
        | none => rfl
        | some d => exact nomatch again.symm.trans (date?_rendered dated)
      have settled := fieldText_rendered_of_undated undated again
      rw [rendered, settled]
      exact settled

def typedStamp : Literal :=
  ⟨"2017-03-04T10:11:12\"^^xsd:dateTime", some xsdDateTime, none⟩

theorem fieldText_settles_typedStamp :
    typedStamp.HidesDate ⟨2017, 3, 4⟩ ∧ typedStamp.fieldText = "2017-03-04T10:11:12" ∧
      typedStamp.rendered.fieldText = "2017-03-04" ∧
      typedStamp.rendered.fieldText ≠ typedStamp.fieldText := by
  have hides : typedStamp.HidesDate ⟨2017, 3, 4⟩ :=
    ⟨by decide +kernel, by decide +kernel, by decide +kernel⟩
  obtain ⟨settled, hidden, -⟩ := fieldText_settles typedStamp
  obtain ⟨cut, date⟩ := hidden _ hides
  have stamp : stripTypeSuffix typedStamp.value = "2017-03-04T10:11:12" := by decide +kernel
  have day : String.ofList (Date.mk 2017 3 4).toText = "2017-03-04" := by decide +kernel
  exact ⟨hides, cut.trans stamp, date.trans day, fun same => settled.mp same ⟨_, hides⟩⟩

end ContentImport.Ontology.Literal
