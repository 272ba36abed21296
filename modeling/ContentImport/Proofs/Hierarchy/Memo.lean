import ContentImport.Hierarchy.Memo

/-!
Kept walks do not show. Whatever was asked before, each walk that is kept is the walk from its own
class in its own direction. So questions in a row are answered one by one as if nothing were kept,
in whatever order they come and however often.
-/

set_option autoImplicit false
set_option relaxedAutoImplicit false

namespace ContentImport

open Hierarchy

def Graph.answer (g : Graph) : Question → Answer
  | .directSubclasses c => .classes (g.directSubclasses c)
  | .directSuperclasses c => .classes (g.directSuperclasses c)
  | .allSubclasses c => .classes (g.allSubclasses c)
  | .allSuperclasses c => .classes (g.allSuperclasses c)
  | .leafSubclasses c => .classes (g.leafSubclasses c)
  | .isDirectlyBelow c target => .verdict (g.isDirectlyBelow c target)
  | .isBelow c target => .verdict (g.isBelow c target)
  | .isInstance individual c => .verdict (g.isInstance individual c)

/-- The graph with the same answers of which no walk is kept. -/
def Graph.unkept (g : Graph) : Graph :=
  { g with strategy := .streaming }

namespace Hierarchy

variable {g : Graph}

/-! ## Kept walks -/

def KeptFrom (walk : Iri → List Iri) (kept : Table Iri (List Iri)) : Prop :=
  ∀ c known, Table.get? kept c = some known → known = walk c

private theorem KeptFrom.memoized {walk : Iri → List Iri} {kept : Table Iri (List Iri)}
    (sound : KeptFrom walk kept) (strategy : AccessStrategy) (c : Iri) :
    (memoized strategy walk c kept).1 = walk c ∧
      KeptFrom walk (memoized strategy walk c kept).2 := by
  unfold Hierarchy.memoized
  cases strategy with
  | streaming => exact ⟨rfl, sound⟩
  | inMemory =>
    cases found : Table.get? kept c with
    | some known => exact ⟨sound c known found, sound⟩
    | none =>
      refine ⟨rfl, fun d known held => ?_⟩
      rw [Table.get?_put] at held
      split at held
      · next same =>
        subst same
        exact (Option.some.inj held).symm
      · exact sound d known held

/-- The walks that are kept are those of the graph, in both directions. -/
structure Memo.Sound (g : Graph) (memo : Memo) : Prop where
  below : KeptFrom g.allSubclasses memo.below
  above : KeptFrom g.allSuperclasses memo.above

private theorem Memo.Sound.empty (g : Graph) : Memo.empty.Sound g := by
  constructor <;> intro c known kept <;> cases kept

/-! ## Sessions -/

namespace Session

variable {α β : Type} {kept : Memo → Prop}

/-- A session gives a value, and what is kept stays as it has to be. -/
def Gives (kept : Memo → Prop) (session : Session α) (value : α) : Prop :=
  ∀ memo, kept memo → (session memo).1 = value ∧ kept (session memo).2

namespace Gives

private theorem pure (kept : Memo → Prop) (value : α) : Gives kept (Pure.pure value) value := by
  intro memo before
  exact ⟨rfl, before⟩

private theorem bind {session : Session α} {value : α} {further : α → Session β} {result : β}
    (first : Gives kept session value) (next : Gives kept (further value) result) :
    Gives kept (session >>= further) result := by
  intro memo before
  obtain ⟨given, between⟩ := first memo before
  have run : (session >>= further) memo = further (session memo).1 (session memo).2 := rfl
  rw [run, given]
  exact next _ between

private theorem map {session : Session α} {value : α} (f : α → β)
    (first : Gives kept session value) :
    Gives kept (f <$> session) (f value) := by
  intro memo before
  obtain ⟨given, after⟩ := first memo before
  exact ⟨congrArg f given, after⟩

end Gives

/-- The walks of a session are those of its graph. -/
structure Walks (kept : Memo → Prop) (g : Graph) : Prop where
  below : ∀ c, Gives kept (allSubclasses g c) (g.allSubclasses c)
  above : ∀ c, Gives kept (allSuperclasses g c) (g.allSuperclasses c)

namespace Walks

private theorem isBelow (walks : Walks kept g) (c target : Iri) :
    Gives kept (Session.isBelow g c target) (g.isBelow c target) :=
  (walks.above c).bind (.pure kept _)

private theorem anyBelow (walks : Walks kept g) (c : Iri) (types : List Iri) :
    Gives kept (Session.anyBelow g c types)
      (types.any fun type => type = c || g.isBelow type c) := by
  induction types with
  | nil => exact .pure kept false
  | cons type rest ih =>
    rw [Session.anyBelow, List.any_cons]
    by_cases same : type = c
    · simpa [same] using Gives.pure kept true
    · simp only [same, if_false, decide_false, Bool.false_or]
      refine (walks.isBelow type c).bind ?_
      cases g.isBelow type c with
      | true => exact .pure kept true
      | false => simpa using ih

private theorem answer (walks : Walks kept g) (question : Question) :
    Gives kept (Session.answer g question) (g.answer question) := by
  cases question with
  | directSubclasses c => exact .pure kept _
  | directSuperclasses c => exact .pure kept _
  | allSubclasses c => exact (walks.below c).map Answer.classes
  | allSuperclasses c => exact (walks.above c).map Answer.classes
  | leafSubclasses c =>
    have leaves : Gives kept (leafSubclasses g c) (g.leafSubclasses c) :=
      (walks.below c).bind (.pure kept _)
    exact leaves.map Answer.classes
  | isDirectlyBelow c target => exact .pure kept _
  | isBelow c target => exact (walks.isBelow c target).map Answer.verdict
  | isInstance individual c =>
    exact (walks.anyBelow c (g.types individual)).map Answer.verdict

private theorem answers (walks : Walks kept g) (questions : List Question) :
    Gives kept (Session.answers g questions) (questions.map g.answer) := by
  rw [Session.answers]
  induction questions with
  | nil => exact .pure kept []
  | cons question rest ih =>
    rw [List.mapM_cons, List.map_cons]
    exact (walks.answer question).bind (ih.bind (.pure kept _))

private theorem sound (g : Graph) : Walks (Memo.Sound g) g := by
  constructor
  · intro c memo before
    obtain ⟨found, after⟩ := before.below.memoized g.strategy c
    exact ⟨found, after, before.above⟩
  · intro c memo before
    obtain ⟨found, after⟩ := before.above.memoized g.strategy c
    exact ⟨found, before.below, after⟩

private theorem unkept (g : Graph) (memo : Memo) : Walks (· = memo) g.unkept := by
  constructor <;> rintro c _ rfl <;> exact ⟨rfl, rfl⟩

end Walks

/-- Kept walks do not show: questions in a row, in any order and with any repetition, are answered
as each of them is answered alone where no walk is kept. -/
theorem answers_as_alone (g : Graph) (questions : List Question) :
    (answers g questions Memo.empty).1 = questions.map g.answer ∧
      ∀ question, answer g.unkept question Memo.empty = (g.answer question, Memo.empty) := by
  constructor
  · exact ((Walks.sound g).answers questions Memo.empty (.empty g)).1
  · intro question
    obtain ⟨given, after⟩ := (Walks.unkept g Memo.empty).answer question Memo.empty rfl
    exact Prod.ext given after

end Session

end Hierarchy

end ContentImport
