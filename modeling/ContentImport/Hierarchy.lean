import ContentImport.Graph
import ContentImport.Hierarchy.Closure

/-!
The class hierarchy of an ontology: what lies below and above a class, and what is an instance of
it. Classes may have several superclasses, and may lie below themselves.
-/

set_option autoImplicit false
set_option relaxedAutoImplicit false

namespace ContentImport.Graph

/-- Every class below a class, in depth-first order. -/
def allSubclasses (g : Graph) (c : Iri) : List Iri :=
  Hierarchy.depthFirst g.directSubclasses g.linked c

/-- Every class above a class, the nearest first. -/
def allSuperclasses (g : Graph) (c : Iri) : List Iri :=
  Hierarchy.breadthFirst g.directSuperclasses g.linked c

def isBelow (g : Graph) (c target : Iri) : Bool :=
  target ∈ g.allSuperclasses c

def isDirectlyBelow (g : Graph) (c target : Iri) : Bool :=
  target ∈ g.directSuperclasses c

/-- Whether a type of an individual is a class or lies below it. -/
def isInstance (g : Graph) (individual c : Iri) : Bool :=
  (g.types individual).any fun type => type = c || g.isBelow type c

/-- The classes below a class that have no class below them. -/
def leafSubclasses (g : Graph) (c : Iri) : List Iri :=
  (g.allSubclasses c).filter fun c => (g.directSubclasses c).isEmpty

/-- Whether something is an instance of a class or a class below it. -/
def descendsFrom (g : Graph) (entity root : Iri) : Bool :=
  g.isInstance entity root || g.isBelow entity root

end ContentImport.Graph
