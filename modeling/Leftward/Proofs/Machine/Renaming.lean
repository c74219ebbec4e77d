import Leftward.Proofs.Primitive.Natives
import Leftward.Proofs.Primitive.Renaming

/-!
# Renaming a program

**A program does not know what its words are called** (`renaming_unnoticed`). If names are exchanged
for others, all of them and everywhere, and no two become one, then the machine makes the same steps
from the renamed program onto the renamed stack: wherever the one run stands, the other stands,
renamed. Nothing about the names that the library gives to its own words is presupposed: a word
means what the stack defines it by.

`show` is the one primitive that spells a name out, so the native must not occur. It is enough that
it does not at the start, since no step makes a native (`natives_of_step`).
-/

namespace Leftward

open Leftward.Expr Primitive

variable {ν τ : Type}

/-- The event with the word that it tells of renamed. What a native is called stays. -/
def Event.rename (ρ : String → String) : Event → Event
  | .resolve name length => .resolve (ρ name) length
  | .defer name => .defer name

/-- The move with everything in it renamed. -/
def Move.rename (ρ : String → String) (move : Move ν τ) : Move ν τ :=
  ⟨move.front.map (Expr.rename ρ), move.values.map (Expr.rename ρ), move.event.map (Event.rename ρ)⟩

/-- The state with everything in it renamed. -/
def State.rename (ρ : String → String) (s : State ν τ) : State ν τ :=
  ⟨s.pending.map (Expr.rename ρ), s.values.map (Expr.rename ρ), s.steps,
    s.events.map (Event.rename ρ)⟩

/-- The status of the renamed state. -/
def Status.rename (ρ : String → String) : Status ν τ → Status ν τ
  | .running s => .running (s.rename ρ)
  | .finished s => .finished (s.rename ρ)
  | .failed s failure => .failed (s.rename ρ) (failure.rename ρ)

/-- The result with everything in it renamed. -/
def Result.rename (ρ : String → String) : Result ν τ → Result ν τ
  | .ok final => .ok (final.map (Expr.rename ρ))
  | .error failure => .error (failure.rename ρ)

variable {ρ : String → String}

theorem State.rename_start (p : List (Expr ν τ)) (base : Stack ν τ) :
    State.start (p.map (Expr.rename ρ)) (base.map (Expr.rename ρ)) =
      (State.start p base).rename ρ := by
  simp only [State.start, State.rename, List.map_reverse, List.map_nil]

theorem Status.result?_rename (status : Status ν τ) :
    (status.rename ρ).result? = status.result?.map (Result.rename ρ) := by
  cases status <;> rfl

theorem Status.steps_rename (status : Status ν τ) :
    (status.rename ρ).state.steps = status.state.steps := by
  cases status <;> rfl

theorem Machine.note_rename (m : Machine ν τ) (event : Option Event) (events : List Event) :
    m.note (event.map (Event.rename ρ)) (events.map (Event.rename ρ)) =
      (m.note event events).map (Event.rename ρ) := by
  cases event with
  | none => rfl
  | some e =>
    simp only [Option.map_some, note]
    split <;> rfl

variable {stamp : Nat → τ} {m : Machine Primitive τ}

/-- **Reading an expression under its new name on the renamed stack** comes to what reading it came
to, renamed. -/
theorem interpret_rename (stamp : Nat → τ) (hρ : Function.Injective ρ) {e : Expr Primitive τ}
    (he : Primitive.display ∉ e.natives) (tag : τ) (values : Stack Primitive τ) :
    interpret (hostWith stamp) tag (values.map (Expr.rename ρ)) (e.rename ρ) =
      match interpret (hostWith stamp) tag values e with
      | .ok move => .ok (move.rename ρ)
      | .error failure => .error (failure.rename ρ) := by
  cases e with
  | word name =>
    simp only [rename_word, interpret, lookup_rename hρ]
    cases Stack.lookup name values with
    | none => rfl
    | some body => simp [Move.rename, Event.rename]
  | native op own =>
    have hop : op ≠ .display := fun h => he (by simp [natives, h])
    have hact : (hostWith stamp).act op tag (values.map (Expr.rename ρ)) =
        ((hostWith stamp).act op tag values).rename ρ := act_rename hρ hop tag values
    simp only [rename_native, interpret, hact]
    cases (hostWith stamp).act op tag values with
    | failed failure =>
      exact congrArg Except.error (Failure.rename_located values failure).symm
    | applied front base => rfl
    | deferred => rfl
    | malformed shown => rfl
  | quot items =>
    rw [rename_quot]
    simp [interpret, Move.rename]
  | defn name body own =>
    rw [rename_defn]
    simp [interpret, Move.rename]
  | _ => rfl

/-- **A step from the renamed state is the step, renamed.** -/
theorem step_rename (hm : m.host = hostWith stamp) (hρ : Function.Injective ρ)
    {s : State Primitive τ} (hs : Primitive.display ∉ s.natives) :
    m.step (s.rename ρ) = (m.step s).rename ρ := by
  obtain ⟨pending, values, steps, events⟩ := s
  cases pending with
  | nil => rfl
  | cons e rest =>
    have he : Primitive.display ∉ e.natives := by
      simp only [State.natives, nativesAll, List.mem_append, not_or] at hs
      exact hs.1.1
    have hread := interpret_rename stamp hρ he (m.host.stamp (steps + 1)) values
    simp only [State.rename, List.map_cons, Machine.step]
    cases m.exceeded (steps + 1) with
    | some limit => rfl
    | none =>
      rw [← hm] at hread
      simp only [hread]
      cases interpret m.host (m.host.stamp (steps + 1)) values e with
      | error failure => rfl
      | ok move =>
        simp only [Move.rename, Machine.note_rename, Status.rename, State.rename, List.map_append,
          List.map_reverse]

/-- **A run from the renamed state is the run, renamed**, wherever it stands. -/
theorem run_rename (hm : m.host = hostWith stamp) (hρ : Function.Injective ρ) (n : Nat)
    {s : State Primitive τ} (hs : Primitive.display ∉ s.natives) :
    m.run n (s.rename ρ) = (m.run n s).rename ρ := by
  induction n generalizing s with
  | zero => rfl
  | succ n ih =>
    rw [Machine.run, Machine.run, step_rename hm hρ hs]
    cases hstep : m.step s with
    -- The step has made no `show`, so there is none before the next one.
    | running t => exact ih fun ht => hs (natives_of_step hm hstep ht)
    | finished t => rfl
    | failed t failure => rfl

/-- A reduction of the renamed program comes to what the reduction comes to, renamed, after as many
steps. -/
theorem yields_rename (hm : m.host = hostWith stamp) (hρ : Function.Injective ρ)
    {p : List (Expr Primitive τ)} {base : Stack Primitive τ}
    (hs : Primitive.display ∉ (State.start p base).natives) (k : Nat) (r' : Result Primitive τ) :
    m.Yields (p.map (Expr.rename ρ)) (base.map (Expr.rename ρ)) k r' ↔
      ∃ r, m.Yields p base k r ∧ r' = r.rename ρ := by
  simp only [Machine.Yields, State.rename_start, run_rename hm hρ _ hs, Status.result?_rename,
    Status.steps_rename, Option.map_eq_some_iff]
  constructor
  · rintro ⟨fuel, ⟨r, hr, rfl⟩, hk⟩
    exact ⟨r, ⟨fuel, hr, hk⟩, rfl⟩
  · rintro ⟨r, ⟨fuel, hr, hk⟩, rfl⟩
    exact ⟨fuel, ⟨r, hr, rfl⟩, hk⟩

/-- **A program does not know what its words are called.** The renamed program on the renamed stack
comes to an end exactly if the program on the stack does. After the same number of steps it then
leaves the same stack, renamed, or fails with a failure that is announced as the other one is; and
until then it stands, after any number of steps, where the other one stands. -/
theorem renaming_unnoticed (stamp : Nat → τ) (limit : Option Int) (watched : Bool)
    {ρ : String → String} (hρ : Function.Injective ρ) (p : List (Expr Primitive τ))
    (base : Stack Primitive τ) (hp : Primitive.display ∉ nativesAll p)
    (hbase : Primitive.display ∉ nativesAll base) :
    let m : Machine Primitive τ := ⟨hostWith stamp, limit, watched⟩
    let p' := p.map (Expr.rename ρ)
    let base' := base.map (Expr.rename ρ)
    ((∃ k r', m.Yields p' base' k r') ↔ ∃ k r, m.Yields p base k r) ∧
    (∀ k r', m.Yields p' base' k r' ↔ ∃ r, m.Yields p base k r ∧ r' = r.rename ρ) ∧
    (∀ failure : Failure Primitive τ, (failure.rename ρ).announced = failure.announced) ∧
    ∀ n, m.run n (.start p' base') = (m.run n (.start p base)).rename ρ := by
  intro m p' base'
  have hs : Primitive.display ∉ (State.start p base).natives := by
    have hreverse : nativesAll p.reverse ⊆ nativesAll p :=
      nativesAll_subset fun _ => List.mem_reverse.mp
    rw [State.natives, List.mem_append, not_or]
    exact ⟨fun h => hp (hreverse h), hbase⟩
  have hyields := yields_rename (m := m) rfl hρ hs
  refine ⟨?_, hyields, Failure.announced_rename, ?_⟩
  · constructor
    · rintro ⟨k, r', h⟩
      obtain ⟨r, hr, -⟩ := (hyields k r').mp h
      exact ⟨k, r, hr⟩
    · rintro ⟨k, r, h⟩
      exact ⟨k, r.rename ρ, (hyields k _).mpr ⟨r, h, rfl⟩⟩
  · intro n
    rw [State.rename_start]
    exact run_rename rfl hρ n hs

/-- A word that the program defines and calls may be called otherwise. -/
theorem renaming_unnoticed_defining :
    let ρ : String → String := ("my-" ++ ·)
    let m : Machine Primitive Unit := ⟨hostWith fun _ => (), none, false⟩
    let p : List (Expr Primitive Unit) :=
      [.word "f", .native .define (), .word "f", .quot [.num 1]]
    Function.Injective ρ ∧ Primitive.display ∉ nativesAll p ∧
      m.Yields (p.map (Expr.rename ρ)) [] 6 (.ok [.num 1, .defn "my-f" [.num 1] ()]) := by
  intro ρ m p
  have hρ : Function.Injective ρ := fun a b h => (String.append_right_inj "my-").mp h
  have hp : Primitive.display ∉ nativesAll p := by decide
  have hyields := (renaming_unnoticed (fun _ => ()) none false hρ p [] hp (by decide)).2.1
  have hbefore : m.Yields p [] 6 (.ok [.num 1, .defn "f" [.num 1] ()]) := ⟨7, rfl, rfl⟩
  exact ⟨hρ, hp, (hyields 6 _).mpr ⟨_, hbefore, rfl⟩⟩

end Leftward
