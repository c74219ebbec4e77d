import Leftward.Native

/-!
# What the primitives do

Each action is written as a match on the top of the stack. The cases that fire come first; the
cases after them say what was wrong, **in the order in which the operands are looked at**: first
that there are enough values, then each operand's kind, then its range.

A fault found here carries the stack that the operation was short of or could not use. Two are
different. `croak` shows the stack beneath its message. `=` finds its fault while comparing, where
no stack is in sight, and leaves it to the machine to fill one in.

No action makes a word or a native: what an action puts into its front was on the stack, was an
item of a quotation on the stack, or is a new boolean, number, quotation or definition.
-/

namespace Leftward

variable {ν τ : Type}

namespace Action

open Leftward.Expr

/-- The operation fails on a stack. -/
def fail (cause : Cause ν τ) (values : Stack ν τ) : Outcome ν τ :=
  .failed (.fault ⟨cause, some values⟩)

/-- The stack holds fewer values than the operation takes. -/
def short (op : Primitive) (needed : Nat) (values : Stack ν τ) : Outcome ν τ :=
  fail (.tooFew op needed values.length) values

/-! ## Shuffling -/

/-- Forget the top value. -/
def drop : Stack ν τ → Outcome ν τ
  | _ :: rest => .applied [] rest
  | values => short .drop 1 values

/-- Double the top value. -/
def dup : Stack ν τ → Outcome ν τ
  | e :: rest => .applied [e, e] rest
  | values => short .dup 1 values

/-- Move the second value down by a number of places. -/
def bury : Stack ν τ → Outcome ν τ
  | num depth :: e :: rest =>
    if depth < 0 then fail (.negativeDepth .bury depth) (num depth :: e :: rest)
    else
      match Stack.take? depth.toNat rest with
      | some (above, below) => .applied (above ++ [e]) below
      | none => short .bury depth.toNat rest
  | n :: e :: rest => fail (.unexpected .bury .number n) (n :: e :: rest)
  | values => short .bury 2 values

/-- Bring up the value at a depth. -/
def exhume : Stack ν τ → Outcome ν τ
  | num depth :: rest =>
    if depth < 0 then fail (.negativeDepth .exhume depth) (num depth :: rest)
    else
      match Stack.take? depth.toNat rest with
      | some (above, e :: below) => .applied (e :: above) below
      | _ => short .exhume (depth.toNat + 1) rest
  | n :: rest => fail (.unexpected .exhume .number n) (n :: rest)
  | values => short .exhume 1 values

/-! ## Logic -/

/-- Compare the top two values. -/
def equal : Stack ν τ → Outcome ν τ
  | e :: f :: rest =>
    match e.equals f with
    | .ok verdict => .applied [bool verdict] rest
    | .error refusal => .failed (.fault ⟨.incomparable refusal, none⟩)
  | values => short .equal 2 values

/-- Turn truth around. -/
def not : Stack ν τ → Outcome ν τ
  | e :: rest => .applied [bool (!e.truthy)] rest
  | values => short .not 1 values

/-- The second value if it counts as true, else the first. -/
def or : Stack ν τ → Outcome ν τ
  | y :: x :: rest => .applied [if x.truthy then x else y] rest
  | values => short .or 2 values

/-- The first value if the second counts as true, else the second. -/
def and : Stack ν τ → Outcome ν τ
  | y :: x :: rest => .applied [if x.truthy then y else x] rest
  | values => short .and 2 values

/-! ## Quotations -/

/-- Quote the top value. -/
def quote : Stack ν τ → Outcome ν τ
  | e :: rest => .applied [quot [e]] rest
  | values => short .quote 1 values

/-- Put a value in front of a quotation. -/
def cons : Stack ν τ → Outcome ν τ
  | e :: quot items :: rest => .applied [quot (e :: items)] rest
  | e :: q :: rest => fail (.unexpected .cons .quotation q) (e :: q :: rest)
  | values => short .cons 2 values

/-- Take the first item off a quotation. -/
def uncons : Stack ν τ → Outcome ν τ
  | quot (e :: items) :: rest => .applied [e, quot items] rest
  | quot [] :: rest => fail .emptyUncons (quot [] :: rest)
  | q :: rest => fail (.unexpected .uncons .quotation q) (q :: rest)
  | values => short .uncons 1 values

/-- Cut a quotation in two at a position. -/
def splitAt : Stack ν τ → Outcome ν τ
  | num index :: quot items :: rest =>
    if index < 0 ∨ items.length < index then
      fail (.splitOutside items.length index) (num index :: quot items :: rest)
    else .applied [quot (items.take index.toNat), quot (items.drop index.toNat)] rest
  | num index :: q :: rest => fail (.unexpected .splitAt .quotation q) (num index :: q :: rest)
  | n :: q :: rest => fail (.unexpected .splitAt .number n) (n :: q :: rest)
  | values => short .splitAt 2 values

/-- Whether a quotation is empty. -/
def null : Stack ν τ → Outcome ν τ
  | quot items :: rest => .applied [bool items.isEmpty] rest
  | e :: rest => fail (.notNullable e) (e :: rest)
  | values => short .null 1 values

/-- Join two quotations, the second one first. -/
def append : Stack ν τ → Outcome ν τ
  | quot b :: quot a :: rest => .applied [quot (a ++ b)] rest
  | quot b :: a :: rest => fail (.unexpected .append .quotation a) (quot b :: a :: rest)
  | b :: a :: rest => fail (.unexpected .append .quotation b) (b :: a :: rest)
  | values => short .append 2 values

/-! ## Reflection -/

/-- The text of the top value, as a string. -/
def display : Stack ν τ → Outcome ν τ
  | e :: rest =>
    match e.render with
    | some text => .applied [ofText text] rest
    | none => .failed (.breakdown .unprintable)
  | values => short .display 1 values

/-- The name of the kind of the top value, as a string above it. -/
def kind : Stack ν τ → Outcome ν τ
  | e :: rest => .applied [ofText e.kind.name] (e :: rest)
  | values => short .kind 1 values

/-! ## Application -/

/-- Run a quotation beneath the second value. -/
def dip : Stack ν τ → Outcome ν τ
  | quot items :: e :: rest => .applied (e :: items) rest
  | q :: e :: rest => fail (.unexpected .dip .quotation q) (q :: e :: rest)
  | values => short .dip 2 values

/-- Run a quotation beneath a number of values. -/
def dig : Stack ν τ → Outcome ν τ
  | num depth :: quot items :: rest =>
    if depth < 0 then fail (.negativeDepth .dig depth) (num depth :: quot items :: rest)
    else
      match Stack.take? depth.toNat rest with
      | some (saved, below) => .applied (saved ++ items) below
      | none => short .dig depth.toNat rest
  | num depth :: q :: rest => fail (.unexpected .dig .quotation q) (num depth :: q :: rest)
  | n :: q :: rest => fail (.unexpected .dig .number n) (n :: q :: rest)
  | values => short .dig 2 values

/-- Run a quotation, or a native that waits. -/
def apply : Stack ν τ → Outcome ν τ
  | quot items :: rest => .applied items rest
  | native op tag :: rest => .applied [native op tag] rest
  | e :: rest => fail (.notApplicable e) (e :: rest)
  | values => short .apply 1 values

/-! ## Arithmetic

**An arithmetic operation that lacks its numbers waits for them**: unless the top two values are
numbers, it defers. Division and remainder go to the floor. -/

/-- An operation on two numbers that is defined everywhere. -/
def arith (f : Int → Int → Int) : Stack ν τ → Outcome ν τ
  | num x :: num y :: rest => .applied [num (f x y)] rest
  | _ => .deferred

/-- An operation on two numbers of which the second must not be zero. -/
def division (op : Primitive) (f : Int → Int → Int) : Stack ν τ → Outcome ν τ
  | num x :: num y :: rest =>
    if y = 0 then fail (.divisionByZero op x) (num x :: num y :: rest)
    else .applied [num (f x y)] rest
  | _ => .deferred

/-! ## Giving up, and defining -/

/-- Give up with a message. -/
def croak : Stack ν τ → Outcome ν τ
  | message :: rest => fail (.croaked message) rest
  | values => short .croak 1 values

/-- Make a definition of a word and a quotation. -/
def define (tag : τ) : Stack ν τ → Outcome ν τ
  | word name :: quot body :: rest => .applied [defn name body tag] rest
  | word name :: body :: rest =>
    fail (.unexpected .define .quotation body) (word name :: body :: rest)
  | name :: body :: rest => fail (.unexpected .define .word name) (name :: body :: rest)
  | values => short .define 2 values

end Action

namespace Primitive

/-- What a primitive does to the stack beneath it; a definition that it makes carries the tag. -/
def act (op : Primitive) (tag : τ) : Stack ν τ → Outcome ν τ :=
  match op with
  | .drop => Action.drop
  | .dup => Action.dup
  | .bury => Action.bury
  | .exhume => Action.exhume
  | .equal => Action.equal
  | .not => Action.not
  | .or => Action.or
  | .and => Action.and
  | .quote => Action.quote
  | .cons => Action.cons
  | .uncons => Action.uncons
  | .splitAt => Action.splitAt
  | .null => Action.null
  | .append => Action.append
  | .display => Action.display
  | .kind => Action.kind
  | .dip => Action.dip
  | .dig => Action.dig
  | .apply => Action.apply
  | .add => Action.arith (· + ·)
  | .sub => Action.arith (· - ·)
  | .mul => Action.arith (· * ·)
  | .div => Action.division .div Int.fdiv
  | .mod => Action.division .mod Int.fmod
  | .croak => Action.croak
  | .define => Action.define tag

/-- The definitions that make the primitives available, in order. A host with natives of its own
embeds the primitives among them and hands out the tags. -/
def definitions (embed : Primitive → ν) (tag : Primitive → τ) : List (Expr ν τ) :=
  all.map fun p => .defn p.name [.native (embed p) (tag p)] (tag p)

/-- The host that supplies the primitives and nothing else. -/
def host : Host Primitive Unit where
  name := name
  act := act
  stamp _ := ()

end Primitive
end Leftward
