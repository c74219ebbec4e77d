import Leftward.Fault
import Leftward.Grammar.Reader

/-!
# Elaboration — syntax tree to expressions

Each node has one meaning, found from the left to the right, and **the first node that has none
ends it**. In a tree that the reader made, that can be the `unparsed` leaf at the end, or before it
a numeral that is too long. A tree from elsewhere can fail in more ways: a leaf without a text, a
label that means nothing, a pair of three.

A bare list and a thing that is no node mean themselves, so an elaborated tree need not be an
expression (`Reading`).
-/

namespace Leftward
namespace Grammar

/-- What a syntax tree means. -/
inductive Reading (ν τ : Type) where
  -- An expression.
  | expr (e : Expr ν τ)
  -- A list, which is also what a program means.
  | list (items : List (Reading ν τ))
  -- A quotation of things that are not all expressions.
  | quot (items : List (Reading ν τ))
  -- A pair of things that are not both expressions.
  | pair (first second : Reading ν τ)
  -- Something that is no node.
  | scalar (shown : String)

namespace Reading

variable {ν τ : Type}

/-- The expression that a reading is. -/
def expr? : Reading ν τ → Option (Expr ν τ)
  | expr e => some e
  | _ => none

/-- The quotation of the readings. -/
def quotation (items : List (Reading ν τ)) : Reading ν τ :=
  match items.mapM expr? with
  | some es => expr (.quot es)
  | none => quot items

/-- The pair of two readings. -/
def ofPair : Reading ν τ → Reading ν τ → Reading ν τ
  | expr a, expr b => expr (.pair a b)
  | a, b => pair a b

end Reading

variable {ν τ : Type}

/-- The text without the line breaks at its end. -/
def trimBreaks (text : List Char) : List Char :=
  (text.reverse.dropWhile Text.isLineBreak).reverse

/-- The meaning of a leaf by its text. -/
def elaborateText (tag : Tag) (text : List Char) : Except (Failure ν τ) (Expr ν τ) :=
  match tag with
  | .number =>
    match Decimal.read text with
    | some n => .ok (.num n)
    | none => .error (.breakdown .notANumeral)
  | .character =>
    match text with
    | _ :: c :: _ => .ok (.chr c)
    | _ => .error (.breakdown .missingCharacter)
  | .string => .ok (.quot ((text.drop 1).dropLast.map .chr))
  | .word => .ok (.word (String.ofList text))
  | .comment => .ok (.comment (String.ofList (trimBreaks (text.drop 2))))
  | _ => .error (Cause.unparsed (String.ofList text)).failure

mutual

/-- The meaning of a node. -/
def elaborate : Node → Except (Failure ν τ) (Reading ν τ)
  | .scalar shown => .ok (.scalar shown)
  | .list items => (elaborateAll items).map .list
  | .node tag text value children =>
    match tag with
    | .program => (elaborateAll children).map .list
    | .quotation => (elaborateAll children).map .quotation
    | .pair =>
      if children.length = 2 then
        (elaborateAll children).map fun
          | [first, second] => .ofPair first second
          | readings => .list readings
      else .error (Cause.pairOf children.length).failure
    | .boolean =>
      match value with
      | some b => .ok (.expr (.bool b))
      | none => .error (.breakdown .missingText)
    | .other label => .error (.breakdown (.unknownTag label))
    | tag =>
      match text with
      | some t => (elaborateText tag t.toList).map .expr
      | none => .error (.breakdown .missingText)

/-- The meanings of nodes in order. -/
def elaborateAll : List Node → Except (Failure ν τ) (List (Reading ν τ))
  | [] => .ok []
  | node :: rest =>
    match elaborate node with
    | .error failure => .error failure
    | .ok reading => (elaborateAll rest).map (reading :: ·)

end

/-- The expressions that a text reads as, with so much room for brackets inside each other. -/
def parse (text : List Char) (room : Nat := maxDepth) : Except (Failure ν τ) (List (Expr ν τ)) :=
  match read text room with
  | none => .error Cause.nestedTooDeeply.failure
  | some tree =>
    match elaborate tree with
    | .error failure => .error failure
    | .ok (.list readings) =>
      match readings.mapM Reading.expr? with
      | some es => .ok es
      | none => .error (.breakdown .notAnExpression)
    | .ok _ => .error (.breakdown .notAnExpression)

end Grammar
end Leftward
