/-!
# Expressions — programs and data are one type

Everything that a program is made of, and everything that it computes, is an expression: words,
literals, quotations, pairs, definitions, native operations and comments. There is no second type
for values, because a word that means nothing yet is data.

Two parameters keep the type open:

- `ν` is the type of native operations. The language itself needs no more of them than a name and
  an action, which the machine's host supplies.
- `τ` is the type of tags. **A tag is the identity of a definition or a native**: two that were
  built separately may agree in everything else and still be two. No operation of the language
  looks at tags; a host that does not care takes `Unit`.
-/

namespace Leftward

/-- An expression over natives `ν` and tags `τ`. -/
inductive Expr (ν τ : Type) where
  -- An identifier: looked up when it is read, data if no definition has its name.
  | word (name : String)
  -- An unbounded integer.
  | num (value : Int)
  -- A truth value.
  | bool (value : Bool)
  -- A character.
  | chr (value : Char)
  -- A quotation: code that is not run, and the list of the language. A string is a quotation of
  -- characters.
  | quot (items : List (Expr ν τ))
  -- A pair.
  | pair (first second : Expr ν τ)
  -- A definition, which lies on the stack among the values.
  | defn (name : String) (body : List (Expr ν τ)) (tag : τ)
  -- A native operation.
  | native (op : ν) (tag : τ)
  -- A comment: an expression that vanishes when it is read and is kept inside quotations.
  | comment (text : String)

/-- A stack of expressions, top first. -/
abbrev Stack (ν τ : Type) := List (Expr ν τ)

/-- The kinds of expression, as the language tells them apart. -/
inductive Kind where
  | word
  | quotation
  | boolean
  | number
  | character
  | pair
  | definition
  | function
  | comment
  deriving DecidableEq, Repr

/-- The name that the language gives to a kind. -/
def Kind.name : Kind → String
  | .word => "word"
  | .quotation => "quotation"
  | .boolean => "boolean"
  | .number => "number"
  | .character => "character"
  | .pair => "pair"
  | .definition => "definition"
  | .function => "function"
  | .comment => "comment"

namespace Expr

variable {ν τ : Type}

/-- The kind of an expression. -/
def kind : Expr ν τ → Kind
  | word _ => .word
  | num _ => .number
  | bool _ => .boolean
  | chr _ => .character
  | quot _ => .quotation
  | pair _ _ => .pair
  | defn _ _ _ => .definition
  | native _ _ => .function
  | comment _ => .comment

/-- Everything but the boolean false counts as true. -/
def truthy : Expr ν τ → Bool
  | bool false => false
  | _ => true

/-- Whether the expression is a definition. -/
def isDefn : Expr ν τ → Bool
  | defn _ _ _ => true
  | _ => false

/-- Whether the expression is a comment. -/
def isComment : Expr ν τ → Bool
  | comment _ => true
  | _ => false

/-- The character that the expression is. -/
def char? : Expr ν τ → Option Char
  | chr c => some c
  | _ => none

/-- The text of a string: the characters, if there is nothing else among the items. -/
def text? (items : List (Expr ν τ)) : Option (List Char) := items.mapM char?

/-- The string with the given text. -/
def ofText (text : String) : Expr ν τ := quot (text.toList.map chr)

/-- The body that the expression defines the name by. -/
def bodyOf? (name : String) : Expr ν τ → Option (List (Expr ν τ))
  | defn n body _ => if n = name then some body else none
  | _ => none

/-! ## Weight

The operations that walk through nested quotations and pairs keep a list of what is left to do
instead of calling themselves for every level. They end because the weight of that list falls.
The weight leaves room for the brackets of a quotation or pair and for what separates its items. -/

mutual
/-- The weight of an expression. Definitions are not entered. -/
def weight : Expr ν τ → Nat
  | quot items => weightAll items + 3
  | pair first second => weight first + weight second + 4
  | _ => 1

/-- The weights of the items, with one more for each. -/
def weightAll : List (Expr ν τ) → Nat
  | [] => 0
  | e :: rest => weight e + weightAll rest + 1
end

theorem weight_pos (e : Expr ν τ) : 0 < e.weight := by
  cases e <;> simp [weight]

theorem weightAll_filter_le (p : Expr ν τ → Bool) (items : List (Expr ν τ)) :
    weightAll (items.filter p) ≤ weightAll items := by
  induction items with
  | nil => simp
  | cons e rest ih =>
    simp only [List.filter_cons, weightAll]
    split
    · simp only [weightAll]
      omega
    · omega

end Expr

namespace Stack

variable {ν τ : Type}

/-- The body of the nearest definition of a name. -/
def lookup (name : String) (values : Stack ν τ) : Option (List (Expr ν τ)) :=
  values.findSome? (Expr.bodyOf? name)

/-- The top `n` values and the stack beneath them, if there are so many. -/
def take? (n : Nat) (values : Stack ν τ) : Option (List (Expr ν τ) × Stack ν τ) :=
  let (front, rest) := values.splitAt n
  if front.length < n then none else some (front, rest)

theorem take?_eq (n : Nat) (values : Stack ν τ) :
    Stack.take? n values =
      if n ≤ values.length then some (values.take n, values.drop n) else none := by
  simp only [Stack.take?, List.splitAt_eq, List.length_take]
  split <;> split <;> first | rfl | omega

/-- The stack without its definitions. -/
def visible (values : Stack ν τ) : Stack ν τ := values.filter (!·.isDefn)

end Stack
end Leftward
