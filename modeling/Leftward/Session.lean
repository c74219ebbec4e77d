import Leftward.Program

/-!
# Sessions — one text after another on one stack

A session starts from the stack that the prelude and the primitives make. Each text is parsed by
itself and reduced onto the stack as it is. **A text that fails leaves the stack as it was**; the
steps that it took are still told, and a text that does not parse takes none, so the steps told are
those of the last reduction.
-/

namespace Leftward

/-- What a session keeps from one text to the next. -/
structure Session where
  /-- The stack. -/
  values : Stack Primitive Unit
  /-- The steps of the last reduction. -/
  steps : Nat

namespace Session

/-- The program that a session starts with. -/
def opening (store : Source.Store) (choice : PreludeChoice) :
    Except (Failure Primitive Unit) (List Term) :=
  Program.assemble store choice []

/-- The session after its opening program. -/
def ofStatus (status : Status Primitive Unit) : Session :=
  ⟨status.state.values, status.state.steps⟩

/-- The state in which the reduction of a text begins. -/
def start (session : Session) (text : String) :
    Except (Failure Primitive Unit) (State Primitive Unit) :=
  (Grammar.parse text.toList).map fun program => State.start program session.values

/-- The session after a reduction. -/
def after (session : Session) : Status Primitive Unit → Session
  | .finished s => ⟨s.values, s.steps⟩
  | .running s | .failed s _ => ⟨session.values, s.steps⟩

end Session
end Leftward
