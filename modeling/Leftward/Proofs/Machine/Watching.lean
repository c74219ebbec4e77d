import Leftward.Proofs.Machine.Composition

/-!
# Watching — what an observer is told

A machine that is watched notes down which words it replaced and which natives declined. **The notes
are all that watching changes**: without them the run is the one that nobody watches
(`run_unnoted`).

What is told can therefore be said of the run itself. Every step that goes on tells what there is to
tell of the expression it reads on the stack that it reads it on (`Host.tells`), in the order of the
steps (`history_of_run`). The step with which a run fails, or is stopped, tells nothing.
-/

namespace Leftward

variable {ν τ : Type}

/-- The machine with someone who watches, or with nobody. -/
def Machine.watching (m : Machine ν τ) (watched : Bool) : Machine ν τ := { m with watched }

/-- The state with nothing noted down. -/
def State.unnoted (s : State ν τ) : State ν τ := { s with events := [] }

/-- What there is to tell of reading an expression on top of a stack: how long the nearest body is
that a word is replaced by, and that a native declines. -/
def Host.tells (host : Host ν τ) (tag : τ) (values : Stack ν τ) : Expr ν τ → Option Event
  | .word name => (Stack.lookup name values).map fun body => .resolve name body.length
  | .native op _ =>
    match host.act op tag values with
    | .deferred => some (.defer (host.name op))
    | _ => none
  | _ => none

namespace Machine

/-- What there is to tell of the next step from a state. -/
def tells (m : Machine ν τ) (s : State ν τ) : Option Event :=
  s.pending.head?.bind (m.host.tells (m.host.stamp (s.steps + 1)) s.values)

/-- The states from which a run of so many steps has gone on, in order. -/
def passed (m : Machine ν τ) : Nat → State ν τ → List (State ν τ)
  | 0, _ => []
  | n + 1, s =>
    match m.step s with
    | .running t => s :: m.passed n t
    | _ => []

variable {m : Machine ν τ}

/-! ## The notes apart, nothing changes -/

theorem note_unwatched (event : Option Event) (events : List Event) :
    (m.watching false).note event events = events := by
  cases event <;> rfl

/-- Without its notes, a step is a step of the machine that nobody watches. -/
theorem step_unnoted (s : State ν τ) :
    (m.step s).map State.unnoted = (m.watching false).step s.unnoted := by
  obtain ⟨pending, values, steps, events⟩ := s
  cases pending with
  | nil => rfl
  | cons e rest =>
    have hexceeded : (m.watching false).exceeded (steps + 1) = m.exceeded (steps + 1) := rfl
    have hhost : (m.watching false).host = m.host := rfl
    simp only [step, State.unnoted, hexceeded, hhost]
    cases m.exceeded (steps + 1) with
    | some limit => rfl
    | none =>
      cases interpret m.host (m.host.stamp (steps + 1)) values e with
      | ok move => simp only [Status.map, State.unnoted, note_unwatched]
      | error failure => rfl

/-- **Without its notes, a run is the run that nobody watches.** -/
theorem run_unnoted (n : Nat) (s : State ν τ) :
    (m.run n s).map State.unnoted = (m.watching false).run n s.unnoted := by
  induction n generalizing s with
  | zero => rfl
  | succ n ih =>
    rw [run, run, ← step_unnoted]
    cases m.step s with
    | running t => exact ih t
    | finished t => rfl
    | failed t failure => rfl

theorem passed_unnoted (n : Nat) (s : State ν τ) :
    (m.passed n s).map State.unnoted = (m.watching false).passed n s.unnoted := by
  induction n generalizing s with
  | zero => rfl
  | succ n ih =>
    rw [passed, passed, ← step_unnoted]
    cases m.step s with
    | running t =>
      show s.unnoted :: (m.passed n t).map State.unnoted = _
      rw [ih t]
      rfl
    | finished t => rfl
    | failed t failure => rfl

/-! ## What is told -/

/-- A move carries what there was to tell. -/
theorem event_of_interpret {host : Host ν τ} {tag : τ} {values : Stack ν τ} {e : Expr ν τ}
    {move : Move ν τ} (h : interpret host tag values e = .ok move) :
    move.event = host.tells tag values e := by
  cases e with
  | word name =>
    cases hb : Stack.lookup name values with
    | some body =>
      rw [interpret_resolve hb] at h
      cases h
      simp only [Host.tells, hb, Option.map_some]
    | none =>
      simp only [interpret, hb] at h
      cases h
      simp only [Host.tells, hb, Option.map_none]
  | native op own =>
    cases ha : host.act op tag values with
    | applied front base =>
      rw [interpret_fire ha] at h
      cases h
      simp only [Host.tells, ha]
    | deferred =>
      rw [interpret_decline ha] at h
      cases h
      simp only [Host.tells, ha]
    | failed failure =>
      rw [interpret_fail ha] at h
      cases h
    | malformed shown => simp [interpret, ha] at h
  | _ =>
    cases h
    rfl

theorem note_watched (hw : m.watched = true) (event : Option Event) (events : List Event) :
    m.note event events = event.toList ++ events := by
  cases event with
  | none => rfl
  | some e => simp [note, hw]

/-- A step that goes on tells what there is to tell of it. -/
theorem history_of_step (hw : m.watched = true) {s t : State ν τ} (h : m.step s = .running t) :
    t.history = s.history ++ (m.tells s).toList := by
  obtain ⟨e, rest, move, hpending, -, hmove, rfl⟩ := step_eq_running h
  have htells : m.tells s = move.event := by
    rw [tells, hpending, event_of_interpret hmove]
    rfl
  simp only [State.history, note_watched hw, List.reverse_append, htells]
  cases move.event <;> rfl

/-- **What is noted down of a run is what there was to tell of each step that went on.** -/
theorem history_of_run (hw : m.watched = true) (n : Nat) (s : State ν τ) :
    (m.run n s).state.history = s.history ++ (m.passed n s).filterMap m.tells := by
  induction n generalizing s with
  | zero => simp [run, passed, Status.state]
  | succ n ih =>
    rw [run, passed]
    cases hstep : m.step s with
    | running t =>
      show (m.run n t).state.history = s.history ++ (s :: m.passed n t).filterMap m.tells
      rw [ih, history_of_step hw hstep, List.append_assoc, List.filterMap_cons]
      cases m.tells s <;> rfl
    | finished t =>
      obtain ⟨-, rfl⟩ := step_eq_finished_iff.mp hstep
      simp [Status.state]
    | failed t failure =>
      obtain ⟨_, _, _, rfl, _⟩ := step_eq_failed hstep
      simp [Status.state, State.history]

/-- What is told of a run that is watched can be told of the run that nobody watches. -/
theorem history_of_watching (n : Nat) (s : State ν τ) :
    ((m.watching true).run n s).state.history =
      s.history ++ ((m.watching false).passed n s.unnoted).filterMap m.tells := by
  have hpassed := passed_unnoted (m := m.watching true) n s
  have hsame : (m.watching true).tells = (m.tells ∘ State.unnoted : State ν τ → Option Event) := rfl
  rw [history_of_run rfl, hsame, ← List.filterMap_map, hpassed]
  rfl

end Machine
end Leftward
