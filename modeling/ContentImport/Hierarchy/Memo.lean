import ContentImport.Hierarchy
import ContentImport.Table

/-!
Questions about the class hierarchy in a row. The walks of an ontology that is held in memory are
kept, so that each is made once; those of one that is streamed are made anew.
-/

set_option autoImplicit false
set_option relaxedAutoImplicit false

namespace ContentImport.Hierarchy

/-- The walks that are kept, by the class they begin at. -/
structure Memo where
  below : Table Iri (List Iri)
  above : Table Iri (List Iri)

def Memo.empty : Memo :=
  ⟨[], []⟩

/-- An answer to a question, and the walks that are kept after it. -/
abbrev Session (α : Type) := StateM Memo α

/-- A question about the class hierarchy. -/
inductive Question where
  | directSubclasses (c : Iri)
  | directSuperclasses (c : Iri)
  | allSubclasses (c : Iri)
  | allSuperclasses (c : Iri)
  | leafSubclasses (c : Iri)
  | isDirectlyBelow (c target : Iri)
  | isBelow (c target : Iri)
  | isInstance (individual c : Iri)
  deriving DecidableEq

inductive Answer where
  | classes (listed : List Iri)
  | verdict (holds : Bool)
  deriving DecidableEq

/-- The walk from a class, and the walks of its direction that are kept after it. -/
def memoized (strategy : AccessStrategy) (walk : Iri → List Iri) (c : Iri)
    (kept : Table Iri (List Iri)) : List Iri × Table Iri (List Iri) :=
  match strategy with
  | .streaming => (walk c, kept)
  | .inMemory =>
    match Table.get? kept c with
    | some known => (known, kept)
    | none =>
      let found := walk c
      (found, Table.put c found kept)

namespace Session

def allSubclasses (g : Graph) (c : Iri) : Session (List Iri) := fun memo =>
  let (found, below) := memoized g.strategy g.allSubclasses c memo.below
  (found, { memo with below })

def allSuperclasses (g : Graph) (c : Iri) : Session (List Iri) := fun memo =>
  let (found, above) := memoized g.strategy g.allSuperclasses c memo.above
  (found, { memo with above })

def isBelow (g : Graph) (c target : Iri) : Session Bool := do
  let above ← allSuperclasses g c
  pure (decide (target ∈ above))

/-- Whether one of some types is a class or lies below it. -/
def anyBelow (g : Graph) (c : Iri) : List Iri → Session Bool
  | [] => pure false
  | type :: rest =>
    if type = c then pure true
    else do
      if ← isBelow g type c then pure true else anyBelow g c rest

/-- Whether a type of an individual is a class or lies below it. -/
def isInstance (g : Graph) (individual c : Iri) : Session Bool :=
  anyBelow g c (g.types individual)

/-- The classes below a class that have no class below them. -/
def leafSubclasses (g : Graph) (c : Iri) : Session (List Iri) := do
  let below ← allSubclasses g c
  pure (below.filter fun c => (g.directSubclasses c).isEmpty)

def answer (g : Graph) : Question → Session Answer
  | .directSubclasses c => pure (.classes (g.directSubclasses c))
  | .directSuperclasses c => pure (.classes (g.directSuperclasses c))
  | .allSubclasses c => Answer.classes <$> allSubclasses g c
  | .allSuperclasses c => Answer.classes <$> allSuperclasses g c
  | .leafSubclasses c => Answer.classes <$> leafSubclasses g c
  | .isDirectlyBelow c target => pure (.verdict (g.isDirectlyBelow c target))
  | .isBelow c target => Answer.verdict <$> isBelow g c target
  | .isInstance individual c => Answer.verdict <$> isInstance g individual c

def answers (g : Graph) (questions : List Question) : Session (List Answer) :=
  questions.mapM (answer g)

end Session

end ContentImport.Hierarchy
