import ContentImport.Ontology.Element

/-!
Annotated axioms: statements that carry a position among their siblings and the property that holds
the actual value. The values of a property are put in the order of the axioms about them.
-/

set_option autoImplicit false
set_option relaxedAutoImplicit false

namespace ContentImport.Ontology

/-- A statement with its annotations. -/
structure AnnotatedAxiom where
  source : Iri
  property : Iri
  target : Term
  /-- The position among the values of the property. -/
  refNum : Option Int
  /-- The property of the target that holds the actual value. -/
  field : Option String
  deriving DecidableEq

/-- The whole number of 64 bits that a text is, with or without a sign. -/
def integer? (s : List Char) : Option Int :=
  let digits := fun ds : List Char =>
    if !ds.isEmpty && ds.all Char.isDigit then some (Text.digitsValue 10 ds : Int) else none
  let n := match s with
    | '-' :: ds => (digits ds).map (-·)
    | '+' :: ds => digits ds
    | ds => digits ds
  n.filter fun n => -(Nat.pow 2 63 : Int) ≤ n && n < (Nat.pow 2 63 : Int)

namespace AnnotatedAxiom

/-- The annotated statement that an element describes, or `none` when it is of another kind or
lacks a part. -/
def ofElement? (anchors : Anchors) (e : Element) : Option AnnotatedAxiom :=
  if e.hasKind .annotatedAxiom then do
    let source ← (e.values owlAnnotatedSource).findSome? Term.resource?
    let property ← (e.values owlAnnotatedProperty).findSome? Term.resource?
    let target ← (e.values owlAnnotatedTarget).head?
    let position := (e.firstLiteral? anchors.refNum).bind fun l =>
      integer? (Text.trimBy Text.isSpace (withoutTypeSuffix l.value.toList))
    let field := ((e.values anchors.annotationField).head?.map fun t => stripTypeSuffix t.lexical)
    pure ⟨source, property, target, position, field.filter (· ≠ "")⟩
  else none

/-- Whether an axiom may stand before another: by ascending position, those without one last. -/
def notAfter (a b : AnnotatedAxiom) : Bool :=
  match a.refNum, b.refNum with
  | some i, some j => i ≤ j
  | some _, none => true
  | none, some _ => false
  | none, none => true

/-- Axioms by position; those of one position stay in the order in which they were found. -/
def inOrder (axioms : List AnnotatedAxiom) : List AnnotatedAxiom :=
  axioms.mergeSort notAfter

theorem notAfter_trans (a b c : AnnotatedAxiom) (hab : a.notAfter b = true)
    (hbc : b.notAfter c = true) : a.notAfter c = true := by
  unfold notAfter at *
  cases ha : a.refNum <;> cases hb : b.refNum <;> cases hc : c.refNum <;> simp_all
  omega

theorem notAfter_total (a b : AnnotatedAxiom) : (a.notAfter b || b.notAfter a) = true := by
  unfold notAfter
  cases a.refNum <;> cases b.refNum <;> simp
  omega

end AnnotatedAxiom

/-- The axioms about one resource, in the order in which they were found. -/
structure AxiomIndex where
  axioms : List AnnotatedAxiom
  deriving DecidableEq

namespace AxiomIndex

def forProperty (index : AxiomIndex) (property : Iri) : List AnnotatedAxiom :=
  AnnotatedAxiom.inOrder (index.axioms.filter (·.property = property))

def withTarget? (index : AxiomIndex) (property : Iri) (target : Term) : Option AnnotatedAxiom :=
  (index.forProperty property).find? (·.target.sameValue target)

/-- Each axiom takes the first value left that is its target; the values that no axiom takes
follow. -/
def arrange : List AnnotatedAxiom → List Term → List Term
  | [], values => values
  | a :: rest, values =>
    match values.find? (·.sameValue a.target) with
    | some v => v :: arrange rest (values.eraseP (·.sameValue a.target))
    | none => arrange rest values

def orderValues (index : AxiomIndex) (property : Iri) (values : List Term) : List Term :=
  arrange (index.forProperty property) values

def isEmpty (index : AxiomIndex) : Bool :=
  index.axioms.isEmpty

end AxiomIndex

end ContentImport.Ontology
