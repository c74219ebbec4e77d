import Leftward.CommandLine

/-!
# The executable

Everything that touches the world: the files are read, the environment is asked whether a trace is
wanted, and what `Leftward.CommandLine` answers is written. A run that does not end keeps the
executable busy for ever, so the loop that drives it stands here and not in the library.
-/

namespace Leftward

/-- The system's error as an obstacle. Error codes come with either sign. -/
def obstacleOf : IO.Error → Source.Obstacle
  | .noFileOrDirectory _ _ _ => .missing
  | .inappropriateType _ code text =>
    match code.toInt32.toInt.natAbs with
    | 20 => .notDirectory
    | 21 => .isDirectory
    | _ => .other text
  | error => .other (toString error)

/-- The bytes of a file, or why there are none. -/
def readBytes (path : String) : IO (Except Source.Obstacle (List UInt8)) := do
  try
    let bytes ← IO.FS.readBinFile (Source.Path.ofString path).toString
    return .ok bytes.toList
  catch error =>
    return .error (obstacleOf error)

/-- Run a machine to the end. -/
partial def runToEnd (m : Machine Primitive Unit) (s : State Primitive Unit) :
    Status Primitive Unit :=
  match m.run 1000000 s with
  | .running t => runToEnd m t
  | ended => ended

/-- Write an answer. -/
def respond : Except Breakdown CommandLine.Response → IO UInt32
  | .ok response => do
    IO.print response.stdout
    IO.eprint response.stderr
    return UInt32.ofNat response.exit
  | .error breakdown => do
    IO.eprintln breakdown.message
    return 1

end Leftward

open Leftward

/-- Run the files named by the arguments as one program. -/
def main (args : List String) : IO UInt32 := do
  let files ← args.mapM fun path => do return (path, ← readBytes path)
  let store : Source.Store := fun path => (files.lookup path).getD (.error .missing)
  let debug := ((← IO.getEnv "FN_DEBUG").getD "") ≠ ""
  let settings : Settings := { debug }
  match CommandLine.start store settings args with
  | .answered response => respond response
  | .program terms =>
    let status := runToEnd settings.machine (State.start terms [])
    match CommandLine.conclude settings terms status with
    | some response => respond response
    | none => return 1
