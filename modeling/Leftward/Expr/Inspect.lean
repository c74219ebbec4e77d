import Leftward.Native
import Leftward.Text.Quoted

/-!
# Inspection — expressions with nothing hidden

Rendering shows a program its data and hides what has no notation. Inspection is for whoever
looks at the program from outside: every expression shows its kind and everything in it except
tags, texts in quotes. Like rendering it needs every integer to have a decimal text.
-/

namespace Leftward

variable {ν τ : Type}

namespace Expr

mutual

/-- The inspected form of an expression, for natives of the given names. -/
def inspect (name : ν → String) : Expr ν τ → Option String
  | word w => some ("Word(" ++ Text.quoted w ++ ")")
  | num value => (Decimal.write value).map fun text => "Num(" ++ text ++ ")"
  | bool value => some (if value then "Bool(True)" else "Bool(False)")
  | chr c => some ("Chr(" ++ Text.quoted (String.singleton c) ++ ")")
  | quot items => (inspectAll name items).map fun texts => "Quot([" ++ texts ++ "])"
  | pair first second => do
    let a ← inspect name first
    let b ← inspect name second
    return "Pair(" ++ a ++ ", " ++ b ++ ")"
  | defn w body _ =>
    (inspectAll name body).map fun texts => "Def(" ++ Text.quoted w ++ ", [" ++ texts ++ "])"
  | native op _ => some ("NativeOp(" ++ Text.quoted (name op) ++ ")")
  | comment text => some ("Comment(" ++ Text.quoted text ++ ")")

/-- The inspected forms of expressions with commas between them. -/
def inspectAll (name : ν → String) : List (Expr ν τ) → Option String
  | [] => some ""
  | [e] => inspect name e
  | e :: rest => do
    let first ← inspect name e
    let others ← inspectAll name rest
    return first ++ ", " ++ others

end

end Expr

/-- The inspected form of a list of expressions. -/
def inspectList (name : ν → String) (items : List (Expr ν τ)) : Option String :=
  (Expr.inspectAll name items).map fun texts => "[" ++ texts ++ "]"

/-- The inspected form of a stack. -/
def Stack.inspect (name : ν → String) (values : Stack ν τ) : Option String :=
  (inspectList name values).map fun text => "Stack(" ++ text ++ ")"

/-- The inspected form of what a native answers, if it is an outcome and no failure. -/
def Outcome.inspect (name : ν → String) : Outcome ν τ → Option String
  | .applied front base => do
    let f ← inspectList name front
    let b ← Stack.inspect name base
    return "Applied(" ++ f ++ ", " ++ b ++ ")"
  | .deferred => some "DEFERRED"
  | _ => none

end Leftward
