/-!
# Syntax trees

What the reader makes of a text before it is given a meaning: nodes with a tag, and either the
text that was read or the nodes below. The tags are those of the grammar's rules. A tree may also
come from elsewhere, so a node can carry a label that is no rule's, and where a node is expected
there can be a bare list or something that is no node at all.
-/

namespace Leftward
namespace Grammar

/-- The label of a node. -/
inductive Tag where
  | program
  | quotation
  | pair
  | number
  | boolean
  | character
  | string
  | word
  | comment
  | unparsed
  -- A label that no rule of the grammar gives.
  | other (label : String)
  deriving DecidableEq, Repr

/-- The tag that a label stands for. -/
def Tag.ofLabel (label : String) : Tag :=
  match label with
  | "program" => .program
  | "quotation" => .quotation
  | "pair" => .pair
  | "number" => .number
  | "boolean" => .boolean
  | "character" => .character
  | "string" => .string
  | "word" => .word
  | "comment" => .comment
  | "unparsed" => .unparsed
  | label => .other label

/-- A syntax tree. -/
inductive Node where
  -- A node. Leaves have a text, the leaf of a boolean a value; the others have children.
  | node (tag : Tag) (text : Option String) (value : Option Bool) (children : List Node)
  -- A list of nodes without a label.
  | list (items : List Node)
  -- Something else, by what it looks like.
  | scalar (shown : String)

namespace Node

/-- A leaf with the text that was read. -/
def leaf (tag : Tag) (text : List Char) : Node := .node tag (some (String.ofList text)) none []

/-- The leaf of a boolean. -/
def truth (value : Bool) : Node := .node .boolean none (some value) []

/-- A node above others. -/
def branch (tag : Tag) (children : List Node) : Node := .node tag none none children

end Node
end Grammar
end Leftward
