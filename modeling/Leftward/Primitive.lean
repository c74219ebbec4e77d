/-!
# Primitives — the native operations of the standard library

A closed list. Each primitive is found in programs under its name, by a definition whose body is
the native alone; what it does is told in `Leftward.Primitive.Action`.
-/

namespace Leftward

/-- The native operations of the standard library. -/
inductive Primitive where
  | drop
  | dup
  | bury
  | exhume
  | equal
  | not
  | or
  | and
  | quote
  | cons
  | uncons
  | splitAt
  | null
  | append
  | display
  | kind
  | dip
  | dig
  | apply
  | add
  | sub
  | mul
  | div
  | mod
  | croak
  | define
  deriving DecidableEq, Repr

namespace Primitive

/-- The word that stands for the primitive. -/
def name : Primitive → String
  | drop => "drop"
  | dup => "dup"
  | bury => "bury"
  | exhume => "exhume"
  | equal => "="
  | not => "not"
  | or => "or"
  | and => "and"
  | quote => "quote"
  | cons => "cons"
  | uncons => "uncons"
  | splitAt => "splitAt"
  | null => "null"
  | append => "append"
  | display => "show"
  | kind => "type"
  | dip => "dip"
  | dig => "dig"
  | apply => "apply"
  | add => "+"
  | sub => "-"
  | mul => "*"
  | div => "/"
  | mod => "%"
  | croak => "croak"
  | define => "def"

/-- All primitives, in the order in which their definitions close a program. -/
def all : List Primitive :=
  [drop, dup, bury, exhume, equal, not, or, and, quote, cons, uncons, splitAt, null, append,
    display, kind, dip, dig, apply, add, sub, mul, div, mod, croak, define]

theorem mem_all (p : Primitive) : p ∈ all := by
  cases p <;> decide

/-- The primitive that a word stands for. -/
def ofName? (word : String) : Option Primitive := all.find? fun p => p.name = word

end Primitive
end Leftward
