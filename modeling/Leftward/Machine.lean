import Leftward.Native

/-!
# The machine — reduction from right to left

A program is read **from its end**: whatever is written to the right of an expression is fully
reduced before the expression is looked at. The machine holds the part of the program that has
not been read (`State.pending`, the expression to be read next in front) and the stack that the
part already read has become (`State.values`).

Reading one expression is `interpret`. A word that has a definition on the stack is replaced by
the definition's body, and a native that fires by its front: neither runs then and there, both are
put in front of what is pending. So **one expression is one step**, and a step needs no more of
its host than a look at the stack.

`Machine.run` takes a number of steps and gives back a status, running still or ended, so every
run is a value of the logic, the endless ones included. With a limit on the steps the machine ends
every run by itself.
-/

namespace Leftward

/-- What a machine notes down when it is watched. -/
inductive Event where
  -- A word was replaced by a body of the given length.
  | resolve (name : String) (length : Nat)
  -- A native declined.
  | defer (name : String)
  deriving DecidableEq, Repr

/-- The line that an event makes in a trace. -/
def Event.line : Event → String
  | .resolve name length => "[DBG] RESOLVE " ++ name ++ " body " ++ length.repr
  | .defer name => "[DBG] DEFER " ++ name

/-- What reading one expression comes to. -/
structure Move (ν τ : Type) where
  /-- Code to be read before anything else, its last expression first of all. -/
  front : List (Expr ν τ)
  /-- The stack afterwards. -/
  values : Stack ν τ
  /-- What an observer is told. -/
  event : Option Event

variable {ν τ : Type}

/-- Read one expression on top of a normalised stack. -/
def interpret (host : Host ν τ) (tag : τ) (values : Stack ν τ) :
    Expr ν τ → Except (Failure ν τ) (Move ν τ)
  | .word name =>
    match Stack.lookup name values with
    | some body => .ok ⟨body, values, some (.resolve name body.length)⟩
    | none => .ok ⟨[], .word name :: values, none⟩
  | .native op own =>
    match host.act op tag values with
    | .applied front base => .ok ⟨front, base, none⟩
    | .deferred => .ok ⟨[], .native op own :: values, some (.defer (host.name op))⟩
    | .failed failure => .error (failure.located values)
    | .malformed shown => .error (.breakdown (.notAnOutcome (host.name op) shown))
  | .comment _ => .ok ⟨[], values, none⟩
  | e => .ok ⟨[], e :: values, none⟩

/-- Where a machine stands. -/
structure State (ν τ : Type) where
  /-- The unread program, the expression to be read next in front. -/
  pending : List (Expr ν τ)
  /-- The stack that the program read so far has become. -/
  values : Stack ν τ
  /-- How many steps have been begun. -/
  steps : Nat
  /-- What has been noted down, the latest first. -/
  events : List Event

/-- The state before a program is reduced onto a stack. -/
def State.start (program : List (Expr ν τ)) (base : Stack ν τ) : State ν τ :=
  ⟨program.reverse, base, 0, []⟩

/-- The unread program as it is written. -/
def State.unread (s : State ν τ) : List (Expr ν τ) := s.pending.reverse

/-- The events in the order in which they happened. -/
def State.history (s : State ν τ) : List Event := s.events.reverse

/-- A machine that runs, or has come to an end. -/
inductive Status (ν τ : Type) where
  -- There is more to be read.
  | running (state : State ν τ)
  -- The whole program has been read; the stack is the result.
  | finished (state : State ν τ)
  -- The step last begun failed. The state is the one in which it failed.
  | failed (state : State ν τ) (failure : Failure ν τ)

/-- The state that a status is about. -/
def Status.state : Status ν τ → State ν τ
  | .running s => s
  | .finished s => s
  | .failed s _ => s

instance : Inhabited (Status ν τ) := ⟨.finished (State.start [] [])⟩

/-- What a reduction comes to: a stack, or the failure that ended it. -/
abbrev Result (ν τ : Type) := Except (Failure ν τ) (Stack ν τ)

/-- What a run has come to, if it has come to an end. -/
def Status.result? : Status ν τ → Option (Result ν τ)
  | .running _ => none
  | .finished s => some (.ok s.values)
  | .failed _ failure => some (.error failure)

/-- A host, with a limit on the steps and someone who watches, or neither. -/
structure Machine (ν τ : Type) where
  host : Host ν τ
  /-- The most steps that a run may take. -/
  limit : Option Int
  /-- Whether events are noted down. -/
  watched : Bool

namespace Machine

/-- Whether a step with the given number is one too many. -/
def exceeded (m : Machine ν τ) (step : Nat) : Option Int :=
  m.limit.filter fun limit => limit < (step : Int)

/-- Add what a move tells to what has been noted down. -/
def note (m : Machine ν τ) (event : Option Event) (events : List Event) : List Event :=
  match event with
  | some e => if m.watched then e :: events else events
  | none => events

/-- Take one step. The step is counted and the expression taken off before anything can fail. -/
def step (m : Machine ν τ) (s : State ν τ) : Status ν τ :=
  match s.pending with
  | [] => .finished s
  | e :: rest =>
    let number := s.steps + 1
    let begun : State ν τ := ⟨rest, s.values, number, s.events⟩
    match m.exceeded number with
    | some limit => .failed begun (.fault ⟨.stepLimit limit, some s.values⟩)
    | none =>
      match interpret m.host (m.host.stamp number) s.values e with
      | .ok move =>
        .running ⟨move.front.reverse ++ rest, move.values, number, m.note move.event s.events⟩
      | .error failure => .failed begun failure

/-- Take up to `fuel` steps, stopping at the end of the run. -/
def run (m : Machine ν τ) : Nat → State ν τ → Status ν τ
  | 0, s => .running s
  | fuel + 1, s =>
    match m.step s with
    | .running t => run m fuel t
    | ended => ended

/-- Running on is running longer. -/
theorem run_add (m : Machine ν τ) (a b : Nat) (s : State ν τ) :
    m.run (a + b) s =
      match m.run a s with
      | .running t => m.run b t
      | ended => ended := by
  induction a generalizing s with
  | zero => simp [run]
  | succ a ih =>
    rw [Nat.succ_add, run, run]
    cases m.step s with
    | running t => exact ih t
    | finished t => rfl
    | failed t failure => rfl

/-- The statuses after each of up to so many steps, as long as there is something to read. -/
def trail (m : Machine ν τ) : Nat → State ν τ → List (Status ν τ)
  | 0, _ => []
  | count + 1, s =>
    match m.step s with
    | .running t => .running t :: trail m count t
    | .finished _ => []
    | .failed t failure => [.failed t failure]

end Machine
end Leftward
