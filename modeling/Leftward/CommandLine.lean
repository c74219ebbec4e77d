import Leftward.Program

/-!
# The command line

The arguments are the paths of source files, which are run as one program. **The answer is all or
nothing**: either the visible part of the result on the standard output and nothing else, or a
report on the standard error and nothing on the standard output. Only a trace, where one is asked
for, precedes the report or stands beside the result.

Answering takes three parts, so that the run between them is left to the caller: `start` reads
and parses, `Machine.run` reduces, `conclude` reports.
-/

namespace Leftward
namespace CommandLine

/-- What is written, and the exit code. -/
structure Response where
  stdout : String
  stderr : String
  exit : Nat
  deriving DecidableEq, Repr

/-- The answer to a command without arguments. -/
def usage : Response := ⟨"", "usage: fn FILE...\n", 2⟩

/-- What is told of a run: of a success nothing, of a failure its message, and of a failure
without a message at least that there was one. -/
def told (failed : Bool) (message : Option String) : String :=
  match failed, message.getD "" with
  | false, _ => ""
  | true, "" => "Unknown error"
  | true, text => text

/-- The answer at the end of running a program. The trace comes before a report. -/
def response (e : Program.Ending) : Except Breakdown Response :=
  match Program.answer e.result with
  | .error b => .error b
  | .ok (.fault _ report) => .ok ⟨"", e.trace ++ told true (some report) ++ "\n", 1⟩
  | .ok (.stack values) =>
    match Stack.renderVisible values with
    | some text => .ok ⟨text ++ "\n", e.trace, 0⟩
    | none => .error .unprintable

/-- How the command is answered, so far. -/
inductive Beginning where
  -- There is nothing to run.
  | answered (response : Except Breakdown Response)
  -- There is a program to run.
  | program (terms : List Term)

/-- Read and parse the files that the arguments name. -/
def start (store : Source.Store) (settings : Settings) (paths : List String)
    (room : Nat := Grammar.maxDepth) : Beginning :=
  match paths with
  | [] => .answered (.ok usage)
  | paths =>
    match Program.assembleFiles store settings.prelude paths room with
    | .ok terms => .program terms
    | .error failure => .answered (response ⟨.error failure, 0, ""⟩)

/-- The answer once the run has ended; none while it has not. -/
def conclude (settings : Settings) (program : List Term) (status : Status Primitive Unit) :
    Option (Except Breakdown Response) :=
  (Program.ended settings program status).map response

/-- The answer to a command, if the run that it takes ends within so many steps. -/
def answer (store : Source.Store) (settings : Settings) (paths : List String) (fuel : Nat)
    (room : Nat := Grammar.maxDepth) : Option (Except Breakdown Response) :=
  match start store settings paths room with
  | .answered response => some response
  | .program terms => conclude settings terms (settings.machine.run fuel (.start terms []))

end CommandLine
end Leftward
