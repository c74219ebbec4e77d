import Leftward.Text.Utf8

/-!
# Obstacles — why a source file gives no text
-/

namespace Leftward
namespace Source

/-- What stands between a path and the text behind it. -/
inductive Obstacle where
  -- There is nothing at the path.
  | missing
  -- There is a directory at the path.
  | isDirectory
  -- The path leads through something that is not a directory.
  | notDirectory
  -- The bytes are not UTF-8.
  | undecodable (fault : Utf8.Fault)
  -- Anything else, in the words of the system.
  | other (text : String)
  deriving DecidableEq, Repr

/-- The obstacle in words. -/
def Obstacle.text : Obstacle → String
  | .missing => "No such file or directory"
  | .isDirectory => "Is a directory"
  | .notDirectory => "Not a directory"
  | .undecodable fault => fault.text
  | .other text => text

end Source
end Leftward
