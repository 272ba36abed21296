import ContentImport.Distinct

/-!
Warnings. A run keeps each message once, in the order in which messages were first raised; a
computation that may raise some gives them along with its value.
-/

set_option autoImplicit false
set_option relaxedAutoImplicit false

namespace ContentImport

/-- The messages of a run, without repetition. -/
structure Warnings where
  messages : List String
  deriving DecidableEq, Repr

namespace Warnings

def empty : Warnings :=
  ⟨[]⟩

/-- Keep a message, unless it was raised before. -/
def warn (log : Warnings) (message : String) : Warnings :=
  ⟨Distinct.add log.messages message⟩

def warnAll (log : Warnings) (messages : List String) : Warnings :=
  messages.foldl warn log

end Warnings

/-- A value and the messages that were raised for it. -/
structure Noted (α : Type) where
  value : α
  messages : List String
  deriving DecidableEq, Repr

namespace Noted

/-- A value for which no message is raised. -/
protected def pure {α : Type} (a : α) : Noted α :=
  ⟨a, []⟩

/-- Go on with a value; its messages come first. -/
protected def bind {α β : Type} (a : Noted α) (f : α → Noted β) : Noted β :=
  let b := f a.value
  ⟨b.value, a.messages ++ b.messages⟩

instance : Monad Noted where
  pure := Noted.pure
  bind := Noted.bind

def warn (message : String) : Noted Unit :=
  ⟨(), [message]⟩

instance : LawfulMonad Noted where
  map_const := rfl
  id_map := fun x => by
    cases x
    simp [Functor.map, Noted.bind, Noted.pure]
  seqLeft_eq := fun _ _ => by
    simp [SeqLeft.seqLeft, Seq.seq, Functor.map, Noted.bind, Noted.pure]
  seqRight_eq := fun _ _ => by
    simp [SeqRight.seqRight, Seq.seq, Functor.map, Noted.bind, Noted.pure]
  pure_seq := fun _ _ => by
    simp [Seq.seq, Functor.map, Pure.pure, Noted.bind, Noted.pure]
  bind_pure_comp := fun _ _ => by
    simp [Bind.bind, Functor.map, Pure.pure, Noted.bind, Noted.pure]
  bind_map := fun _ _ => by
    simp [Bind.bind, Functor.map, Seq.seq, Noted.bind]
  pure_bind := fun _ _ => by
    simp [Bind.bind, Pure.pure, Noted.bind, Noted.pure]
  bind_assoc := fun _ _ _ => by
    simp [Bind.bind, Noted.bind]

end Noted

end ContentImport
