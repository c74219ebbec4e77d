import Leftward.Fault
import Leftward.Source.Path
import Leftward.Text.Newline

/-!
# Sources

A source is a file that holds program text: its bytes are UTF-8 and its newlines are unified.
Where the bytes come from is left open. **A `Store` answers a path with bytes or with an
obstacle**, and nothing here asks it twice.
-/

namespace Leftward
namespace Source

/-- A place that files are read from. -/
abbrev Store := String → Except Obstacle (List UInt8)

/-- The text in the bytes of a file. -/
def text (bytes : List UInt8) : Except Obstacle (List Char) :=
  match Utf8.decode bytes with
  | .ok cs => .ok (Newline.unify cs)
  | .error fault => .error (.undecodable fault)

variable {ν τ : Type}

/-- The text of the file at a path, or what stands between. -/
def read (store : Store) (path : String) : Except Obstacle (List Char) :=
  match store path with
  | .error obstacle => .error obstacle
  | .ok bytes => text bytes

/-- The text of the file at a path. That there is none is a fault of the language. -/
def load (store : Store) (path : String) : Except (Failure ν τ) (List Char) :=
  match read store path with
  | .ok cs => .ok cs
  | .error obstacle => .error (Cause.unreadable path obstacle).failure

/-- The texts of the files at the paths, or the failure of the first that has none. -/
def loadAll (store : Store) : List String → Except (Failure ν τ) (List (List Char))
  | [] => .ok []
  | path :: rest =>
    match load store path with
    | .error failure => .error failure
    | .ok cs => (loadAll store rest).map (cs :: ·)

end Source
end Leftward
