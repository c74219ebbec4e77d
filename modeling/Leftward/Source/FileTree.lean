import Leftward.Source.Obstacle
import Leftward.Source.Path

/-!
# File trees — a working directory as a value

A tree is the list of its entries, each under the names that lead to it. A directory is there if
it is an entry or if an entry lies below it. Following a path can fail in three ways, told apart as
a file system tells them apart: **nothing there**, **a directory where a file is wanted**, and **a
file where a directory is wanted**.

Above the tree there is a directory of which nothing is known.
-/

namespace Leftward
namespace Source

/-- What is found under a path. -/
inductive Entry where
  | file (bytes : List UInt8)
  | directory
  deriving DecidableEq, Repr

/-- The entries under the names that lead to them. -/
abbrev FileTree := List (List String × Entry)

namespace FileTree

/-- What lies at a place in the tree. -/
def entry? (tree : FileTree) (place : List String) : Option Entry :=
  match List.lookup place tree with
  | some entry => some entry
  | none =>
    if place = [] ∨ List.any tree fun (names, _) => place.isPrefixOf names then some .directory
    else none

/-- Follow names from a place, given in reverse, or from above the tree if there is none. -/
def follow (tree : FileTree) : Option (List String) → List String → Except Obstacle Entry
  | none, [] => .ok .directory
  | none, name :: rest => if name = ".." then follow tree none rest else .error .missing
  | some place, [] =>
    match entry? tree place.reverse with
    | some entry => .ok entry
    | none => .error .missing
  | some place, name :: rest =>
    match entry? tree place.reverse with
    | none => .error .missing
    | some (.file _) => .error .notDirectory
    | some .directory =>
      if name = ".." then follow tree (if place = [] then none else some place.tail) rest
      else follow tree (some (name :: place)) rest

/-- The bytes of the file at a path. -/
def bytes (tree : FileTree) (path : String) : Except Obstacle (List UInt8) :=
  let path := Path.ofString path
  if path.root ≠ "" then .error .missing
  else
    match follow tree (some []) path.names with
    | .ok (.file bytes) => .ok bytes
    | .ok .directory => .error .isDirectory
    | .error obstacle => .error obstacle

end FileTree
end Source
end Leftward
