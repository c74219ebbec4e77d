import Leftward.Grammar.Elaborate
import Leftward.Machine
import Leftward.Prelude
import Leftward.Primitive.Action
import Leftward.Source

/-!
# Programs — from sources to a result

A program is put together from source texts: the user's in order, then the prelude, **all read as
one text** with a line feed between each two; behind what that reads as come the definitions of
the primitives. Read from its end, a program thus defines the primitives first, then the prelude's
words, then its own.

Everything is read before anything is parsed, and parsed before anything is reduced. So a fault in
reading or parsing carries no stack, and no step has been made.

Running a program ends in a stack or a failure, or not at all (`ending`). **A stack is answered as
it is and a fault with its report** (`answer`); a breakdown has no answer.
-/

namespace Leftward

/-- An expression of the standard library's language. -/
abbrev Term := Expr Primitive Unit

/-- Which prelude stands behind a program. -/
inductive PreludeChoice where
  | absent
  | shipped
  | file (path : String)
  deriving DecidableEq, Repr

/-- How a program is to be run. -/
structure Settings where
  prelude : PreludeChoice := .shipped
  /-- The most steps that the run may take. -/
  limit : Option Int := none
  /-- Whether the run leaves a trace. -/
  debug : Bool := false

/-- The machine that runs a program. -/
def Settings.machine (settings : Settings) : Machine Primitive Unit :=
  ⟨Primitive.host, settings.limit, settings.debug⟩

namespace Program

/-! ## Putting a program together -/

/-- The definitions of the primitives. -/
def primitives : List Term := Primitive.definitions id fun _ => ()

/-- The prelude's text, as a list of none or one. The path of a prelude file is told in its
shortest form. -/
def preludeTexts (store : Source.Store) :
    PreludeChoice → Except (Failure Primitive Unit) (List (List Char))
  | .absent => .ok []
  | .shipped => .ok [preludeText.toList]
  | .file path => Source.loadAll store [(Source.Path.ofString path).toString]

/-- The texts as one, with a line feed between each two. -/
def join (texts : List (List Char)) : List Char := List.intercalate ['\n'] texts

/-- The program that the texts make, read with so much room for brackets inside each other. -/
def assemble (store : Source.Store) (choice : PreludeChoice) (texts : List (List Char))
    (room : Nat := Grammar.maxDepth) : Except (Failure Primitive Unit) (List Term) :=
  match preludeTexts store choice with
  | .error failure => .error failure
  | .ok last =>
    match Grammar.parse (join (texts ++ last)) room with
    | .error failure => .error failure
    | .ok terms => .ok (terms ++ primitives)

/-- The program that the files make. -/
def assembleFiles (store : Source.Store) (choice : PreludeChoice) (paths : List String)
    (room : Nat := Grammar.maxDepth) : Except (Failure Primitive Unit) (List Term) :=
  match Source.loadAll store paths with
  | .error failure => .error failure
  | .ok texts => assemble store choice texts room

/-! ## Watching a program -/

/-- The line that opens a trace. -/
def openingLine (program : List Term) : Option String :=
  (Stack.preview Stack.previewLimit program).map ("[DBG] PROGRAM " ++ ·)

/-- The trace of a run: the program, then the events, a line each. -/
def trace (program : List Term) (status : Status Primitive Unit) : Option String :=
  (openingLine program).map fun first =>
    (first :: status.state.history.map Event.line).foldl (fun out line => out ++ line ++ "\n") ""

/-- The trace of a run, empty if nobody watches. -/
def traceOf (settings : Settings) (program : List Term) (status : Status Primitive Unit) :
    Option String :=
  if settings.debug then trace program status else some ""

/-! ## Running a program -/

/-- The end of running a program. -/
structure Ending where
  /-- The stack that was reached, or why none was. -/
  result : Result Primitive Unit
  /-- How many steps were begun. -/
  steps : Nat
  /-- What an observer has been told. -/
  trace : String

/-- The end of a run, once it has come. It comes before the run if its trace cannot be opened. -/
def ended (settings : Settings) (program : List Term) (status : Status Primitive Unit) :
    Option Ending :=
  match traceOf settings program status with
  | none => some ⟨.error (.breakdown .unprintable), 0, ""⟩
  | some trace => status.result?.map fun result => ⟨result, status.state.steps, trace⟩

/-- The end of running what has been put together, if it comes within so many steps. What could not
be put together has ended. -/
def endingOf (settings : Settings) (fuel : Nat) :
    Except (Failure Primitive Unit) (List Term) → Option Ending
  | .error failure => some ⟨.error failure, 0, ""⟩
  | .ok program => ended settings program (settings.machine.run fuel (.start program []))

/-- The end of running the texts as a program, if it comes within so many steps. -/
def ending (store : Source.Store) (settings : Settings) (texts : List (List Char)) (fuel : Nat)
    (room : Nat := Grammar.maxDepth) : Option Ending :=
  endingOf settings fuel (assemble store settings.prelude texts room)

/-- The end of running the files as a program, if it comes within so many steps. -/
def endingOfFiles (store : Source.Store) (settings : Settings) (paths : List String) (fuel : Nat)
    (room : Nat := Grammar.maxDepth) : Option Ending :=
  endingOf settings fuel (assembleFiles store settings.prelude paths room)

/-! ## Answering for a program -/

/-- What is handed to whoever asked for a program to be run. -/
inductive Answer where
  -- The stack that was reached.
  | stack (values : Stack Primitive Unit)
  -- The fault that was found, and its report.
  | fault (fault : Fault Primitive Unit) (report : String)

/-- The answer to a result, or the breakdown that comes in its place: the one that the result is, or
that a fault cannot be reported. -/
def answer : Result Primitive Unit → Except Breakdown Answer
  | .ok values => .ok (.stack values)
  | .error (.breakdown b) => .error b
  | .error (.fault fault) =>
    match fault.report with
    | some report => .ok (.fault fault report)
    | none => .error .unprintable

end Program
end Leftward
