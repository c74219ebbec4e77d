import Leftward.Expr
import Leftward.Text.Decimal

/-!
# Rendering — expressions as text

Data renders in the notation the reader takes. Natives and definitions have no notation and
render as placeholders; booleans render as the words `?True` and `?False`, which do not read back
as booleans. **A comment renders as nothing**, and where items are separated it takes no
separator either.

A string is set between the first delimiter that does not occur in it. Since the notation has no
escapes, a string that holds all three delimiters has no text that reads back.

Rendering fails exactly when an integer has no decimal text (`Decimal.write`). Like comparison, it
works off a list of pieces, so that depth costs nothing.
-/

namespace Leftward
namespace Expr

variable {ν τ : Type}

/-- The string delimiters in order of preference: double quote, single quote, backquote. -/
def delimiters : List Char := ['\x22', '\x27', '\x60']

/-- The delimiter for a text: the first that the text does not hold, else the double quote. -/
def delimiter (text : List Char) : Char :=
  (delimiters.find? fun d => !text.contains d).getD '\x22'

/-- A string in its delimiters. -/
def renderText (text : List Char) : String :=
  let d := delimiter text
  String.ofList (d :: text ++ [d])

/-- A piece of text still to be written, or an expression still to be rendered. -/
inductive Piece (ν τ : Type) where
  | text (s : String)
  | expr (e : Expr ν τ)

/-- Expressions with a space between each two. -/
def Piece.spaced : List (Expr ν τ) → List (Piece ν τ)
  | [] => []
  | [e] => [.expr e]
  | e :: rest => .expr e :: .text " " :: Piece.spaced rest

/-- How much work a piece is. -/
def Piece.weight : Piece ν τ → Nat
  | .text _ => 1
  | .expr e => e.weight

/-- How much work a list of pieces is. -/
def Piece.total : List (Piece ν τ) → Nat
  | [] => 0
  | piece :: work => piece.weight + Piece.total work

theorem Piece.total_append (work more : List (Piece ν τ)) :
    Piece.total (work ++ more) = Piece.total work + Piece.total more := by
  induction work with
  | nil => simp [Piece.total]
  | cons piece work ih => simp [Piece.total, ih, Nat.add_assoc]

theorem Piece.total_spaced_le (items : List (Expr ν τ)) :
    Piece.total (Piece.spaced items) ≤ weightAll items := by
  fun_induction Piece.spaced items with
  | case1 => simp [Piece.total]
  | case2 e => simp [Piece.total, Piece.weight, weightAll]
  | case3 e rest _ ih =>
    simp only [Piece.total, Piece.weight, weightAll]
    omega

/-- The items of a quotation that show. -/
def shown (items : List (Expr ν τ)) : List (Expr ν τ) := items.filter (!·.isComment)

/-- The text of an expression that is neither a quotation nor a pair. -/
def leaf : Expr ν τ → Option String
  | word name => some name
  | num value => Decimal.write value
  | bool value => some (if value then "?True" else "?False")
  | chr c => some (String.ofList ['.', c])
  | defn _ _ _ => some "<definition>"
  | native _ _ => some "<function>"
  | comment _ | quot _ | pair _ _ => some ""

/-- Write the pieces behind what has been written. -/
def renderWork (written : String) : List (Piece ν τ) → Option String
  | [] => some written
  | .text s :: work => renderWork (written ++ s) work
  | .expr (quot items) :: work =>
    match text? items with
    | some text => renderWork (written ++ renderText text) work
    | none =>
      renderWork (written ++ "[")
        (Piece.spaced (shown items) ++ .text "]" :: work)
  | .expr (pair first second) :: work =>
    renderWork (written ++ "(")
      (.expr first :: .text " " :: .expr second :: .text ")" :: work)
  | .expr e :: work =>
    match leaf e with
    | some s => renderWork (written ++ s) work
    | none => none
termination_by work => Piece.total work
decreasing_by
  all_goals simp only [Piece.total, Piece.total_append, Piece.weight, weight]
  · omega
  · omega
  · have h : Piece.total (Piece.spaced (shown items)) ≤ weightAll items :=
      Nat.le_trans (Piece.total_spaced_le _) (weightAll_filter_le _ items)
    omega
  · omega
  · have := e.weight_pos
    omega

/-- The text of an expression, or none if it holds an integer that has no decimal text. -/
def render (e : Expr ν τ) : Option String := renderWork "" [.expr e]

end Expr

namespace Stack

variable {ν τ : Type}

/-- The text of a stack, top first. Values that render as nothing take no separator. -/
def render (values : Stack ν τ) : Option String :=
  (values.mapM Expr.render).map fun texts => " ".intercalate (texts.filter (· ≠ ""))

/-- The text of a stack without its definitions, which is how a result is shown. -/
def renderVisible (values : Stack ν τ) : Option String := Stack.render values.visible

/-- How much of a stack a report shows. -/
def previewLimit : Int := 150

/-- The first `limit` characters of a text, the last `-limit` dropped if `limit` is negative. -/
def cut (limit : Int) (text : List Char) : List Char :=
  if limit < 0 then text.take (text.length - limit.natAbs) else text.take limit.toNat

/-- The stack as one quotation, cut short if its text is longer than the limit. The whole text
is made first, so a preview fails wherever the rendering does. -/
def preview (limit : Int) (values : Stack ν τ) : Option String :=
  (Expr.quot values).render.map fun text =>
    if (text.length : Int) > limit then String.ofList (cut limit text.toList) ++ "..." else text

end Stack
end Leftward
