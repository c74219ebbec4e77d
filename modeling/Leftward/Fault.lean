import Leftward.Expr.Compare
import Leftward.Expr.Render
import Leftward.Primitive
import Leftward.Source.Obstacle

/-!
# Faults — what can go wrong, and how it is told

A **fault** is an error of the language. It has a cause, which says what happened, and, once a
program is being reduced, the stack at which it happened. Causes are data: what the program held
when it failed, not a sentence about it. The sentence is made by `Cause.message`, and may not
exist, because it may have to show an integer that has no decimal text.

A **breakdown** is anything else that ends a run without an answer: an integer that cannot be
written, or something handed to the language that is none of its own (a syntax tree of unknown
shape, a native that does not answer).
-/

namespace Leftward

/-! ## Causes -/

/-- The categories of fault that the language announces. -/
inductive Category where
  | parseFailure
  | shapeMismatch
  | incomparableValues
  | arithmeticFailure
  | sourceUnreadable
  | croak
  | stepLimitExceeded
  deriving DecidableEq, Repr

/-- The name of a category. -/
def Category.name : Category → String
  | .parseFailure => "ParseFailure"
  | .shapeMismatch => "ShapeMismatch"
  | .incomparableValues => "IncomparableValues"
  | .arithmeticFailure => "ArithmeticFailure"
  | .sourceUnreadable => "SourceUnreadable"
  | .croak => "Croak"
  | .stepLimitExceeded => "StepLimitExceeded"

/-- The operations that take a depth. -/
inductive Reach where
  | bury
  | exhume
  | dig
  deriving DecidableEq, Repr

/-- The operation with its preposition. -/
def Reach.phrase : Reach → String
  | .bury => "bury at"
  | .exhume => "exhume from"
  | .dig => "dig to"

/-- What happened. -/
inductive Cause (ν τ : Type) where
  -- No term reads where the rest of the text begins.
  | unparsed (rest : String)
  -- Brackets stand in brackets beyond the reader's room.
  | nestedTooDeeply
  -- A pair with a number of members that is not two.
  | pairOf (count : Nat)
  -- A source that gives no text.
  | unreadable (path : String) (obstacle : Source.Obstacle)
  -- Fewer values than the operation takes.
  | tooFew (op : Primitive) (needed found : Nat)
  -- A value of another kind than the operation takes.
  | unexpected (op : Primitive) (wanted : Kind) (found : Expr ν τ)
  -- A depth below zero.
  | negativeDepth (reach : Reach) (depth : Int)
  -- A position outside a quotation.
  | splitOutside (length : Nat) (index : Int)
  -- A quotation without a first item.
  | emptyUncons
  -- A value that is no quotation, asked whether it is empty.
  | notNullable (found : Expr ν τ)
  -- A value that is neither a quotation nor a native, applied.
  | notApplicable (found : Expr ν τ)
  -- Two values that the language does not compare.
  | incomparable (refusal : Refusal)
  -- A division by zero of the given number.
  | divisionByZero (op : Primitive) (dividend : Int)
  -- The program gave up with a message.
  | croaked (message : Expr ν τ)
  -- The machine took as many steps as it was allowed.
  | stepLimit (limit : Int)
  -- A native from outside the library reports a fault in its own words.
  | reported (category : Category) (text : String)

namespace Cause

variable {ν τ : Type}

/-- The category that a cause belongs to. -/
def category : Cause ν τ → Category
  | unparsed _ | nestedTooDeeply | pairOf _ => .parseFailure
  | unreadable _ _ => .sourceUnreadable
  | tooFew _ _ _ | unexpected _ _ _ | negativeDepth _ _ | splitOutside _ _ | emptyUncons
  | notNullable _ | notApplicable _ => .shapeMismatch
  | incomparable _ => .incomparableValues
  | divisionByZero _ _ => .arithmeticFailure
  | croaked _ => .croak
  | stepLimit _ => .stepLimitExceeded
  | reported category _ => category

/-- How much of the unread text a parse failure shows. -/
def parsePreview : Nat := 30

/-- What happened, in words; none if an integer in it has no decimal text. -/
def message : Cause ν τ → Option String
  | unparsed rest =>
    some ("Parse error in '" ++ String.ofList (rest.toList.take parsePreview) ++ "...'")
  | nestedTooDeeply => some "Brackets nested too deeply to parse"
  | pairOf count => some ("A pair holds exactly two expressions, got " ++ count.repr)
  | unreadable path obstacle =>
    some ("Cannot read source file '" ++ path ++ "': " ++ obstacle.text)
  | tooFew op needed found => do
    let n ← Decimal.write needed
    return "'" ++ op.name ++ "' needs " ++ n ++ " values on the stack, found " ++ found.repr
  | unexpected op wanted found => do
    let text ← found.render
    return "'" ++ op.name ++ "' expected a " ++ wanted.name ++ ", got '" ++ text ++ "'"
  | negativeDepth reach depth => do
    let d ← Decimal.write depth
    return "Cannot " ++ reach.phrase ++ " negative depth " ++ d
  | splitOutside length index => do
    let i ← Decimal.write index
    return "Cannot split a quotation of length " ++ length.repr ++ " at " ++ i
  | emptyUncons => some "Cannot uncons an empty quotation"
  | notNullable found => do
    let text ← found.render
    return "Cannot determine if non-quote value '" ++ text ++ "' is null."
  | notApplicable found => do
    let text ← found.render
    return "Don't know how to apply " ++ text
  | incomparable .functions => some "Cannot compare functions"
  | incomparable .definitions => some "Cannot compare definitions"
  | divisionByZero op dividend => do
    let x ← Decimal.write dividend
    return "Division by zero in '" ++ op.name ++ " " ++ x ++ " 0'"
  | croaked message => message.render
  | stepLimit limit => do
    let n ← Decimal.write limit
    return "Reduction did not finish within " ++ n ++ " steps"
  | reported _ text => some text

end Cause

/-! ## Faults and breakdowns -/

/-- A fault of the language: what happened, and on which stack if reduction had begun. -/
structure Fault (ν τ : Type) where
  cause : Cause ν τ
  stack : Option (Stack ν τ)

namespace Fault

variable {ν τ : Type}

/-- The fault with the stack filled in where it knew none. -/
def located (values : Stack ν τ) (fault : Fault ν τ) : Fault ν τ :=
  { fault with stack := some (fault.stack.getD values) }

/-- The whole report: category and message, then a preview of the stack. -/
def report (fault : Fault ν τ) : Option String := do
  let text ← fault.cause.message
  let head := fault.cause.category.name ++ ": " ++ text
  match fault.stack with
  | none => return head
  | some values =>
    let shown ← Stack.preview Stack.previewLimit values
    return head ++ "\nAt\n   " ++ shown

end Fault

/-- What ends a run and is no fault of the language. -/
inductive Breakdown where
  -- An integer with more digits than a numeral may have was to be written.
  | unprintable
  -- The text of a number is no numeral, or too long for one.
  | notANumeral
  -- A leaf of the syntax tree lacks what it is to be read from.
  | missingText
  -- A character literal without a character.
  | missingCharacter
  -- A node of the syntax tree with a label that means nothing.
  | unknownTag (label : String)
  -- Something in the syntax tree that is no expression.
  | notAnExpression
  -- A native gave back something that is no outcome.
  | notAnOutcome (name shown : String)
  deriving DecidableEq, Repr

/-- The breakdown in words. -/
def Breakdown.message : Breakdown → String
  | .unprintable => "The integer has too many digits to be written"
  | .notANumeral => "The text is no numeral of at most " ++ Decimal.maxDigits.repr ++ " digits"
  | .missingText => "The node lacks its text"
  | .missingCharacter => "The node lacks its character"
  | .unknownTag label => "No transformer for tag '" ++ label ++ "'"
  | .notAnExpression => "The node is no expression"
  | .notAnOutcome name shown =>
    "Native '" ++ name ++ "' returned " ++ shown ++ ", expected Applied or DEFERRED"

/-- Why there is no answer. -/
inductive Failure (ν τ : Type) where
  | fault (fault : Fault ν τ)
  | breakdown (breakdown : Breakdown)

/-- The failure with the stack filled in, if it is a fault that knew none. -/
def Failure.located {ν τ : Type} (values : Stack ν τ) : Failure ν τ → Failure ν τ
  | .fault f => .fault (f.located values)
  | .breakdown b => .breakdown b

/-- A fault without a stack, as a failure. -/
def Cause.failure {ν τ : Type} (cause : Cause ν τ) : Failure ν τ := .fault ⟨cause, none⟩

end Leftward
