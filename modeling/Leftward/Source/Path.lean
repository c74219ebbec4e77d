/-!
# Paths

A path is a list of names with slashes between them. **Empty names and single points mean
nothing** and are dropped, so that `a//b/./c/` names what `a/b/c` names; two points go up and are
kept, because what lies above is known only once the path is followed.
-/

namespace Leftward
namespace Source

/-- A path: whether it starts at the root, and the names on the way. -/
structure Path where
  /-- How many slashes the path starts with: none, one, or exactly two. -/
  root : String
  /-- The names, none of them empty and none a single point. -/
  names : List String
  deriving DecidableEq, Repr

namespace Path

/-- The pieces of a text between slashes. -/
def pieces (done : List Char) : List Char → List String
  | [] => [String.ofList done.reverse]
  | '/' :: rest => String.ofList done.reverse :: pieces [] rest
  | c :: rest => pieces (c :: done) rest

/-- Where a path starts: two slashes, and no more than two, are a root of their own. -/
def rootOf : List Char → String
  | '/' :: '/' :: '/' :: _ => "/"
  | '/' :: '/' :: _ => "//"
  | '/' :: _ => "/"
  | _ => ""

/-- Read a path. -/
def ofString (text : String) : Path :=
  ⟨rootOf text.toList, (pieces [] text.toList).filter fun name => name ≠ "" ∧ name ≠ "."⟩

/-- The path as text; a path that goes nowhere is a point. -/
def toString (path : Path) : String :=
  let text := path.root ++ "/".intercalate path.names
  if text = "" then "." else text

end Path
end Source
end Leftward
