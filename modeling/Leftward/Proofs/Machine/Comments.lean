import Leftward.Proofs.Expr.Comments
import Leftward.Proofs.Primitive.Contract
import Leftward.Proofs.Primitive.Likeness

/-!
# Comments where they are read

A comment that is read vanishes, and that takes a step. **Without the comments that a program reads
it comes to the same end, in fewer steps** (`comments_inert`): those at its top level, and those
that lie directly in bodies of definitions, at whatever depth the definitions lie.

No primitive looks into a body (`likeness_sheds`), and what it fails with is told in the same words,
since what is shown has the same text (`told_eq`).

Two runs are compared of which the second has some of these comments less before it (`State.Sheds`).
Where the next expression is one that both have, they take a step together (`step_kept`); where it
is a comment that only the first has, the first takes a step alone. So the second is never the
longer one. New definitions have the comments of the quotations that they are made of, in both runs,
which is why the second does not stay without comments and has only fewer of them.
-/

namespace Leftward

open Leftward.Expr Primitive

variable {ν τ : Type}

/-! ## Primitives -/

/-- **Values that have shed comments in bodies are like the values before**, whatever the tags. -/
theorem likeness_sheds (tag tag' : τ) : Likeness (Expr.Sheds (ν := ν)) tag tag' where
  shape {e e'} h := by
    cases e with
    | quot items =>
      obtain ⟨items', rfl, hitems⟩ := h.of_quot
      exact .quot hitems
    | _ => cases h <;> constructor
  equals hx hy := hx.equals_eq hy
  num value := .same _
  bool value := .same _
  chr c := .same _
  quot h := .quot h
  defn hname hbody := by
    cases hname
    exact .defn (.of_forall₂ hbody)

theorem act_sheds (op : Primitive) (tag tag' : τ) {values values' : Stack ν τ}
    (h : List.Forall₂ Expr.Sheds values values') :
    (op.act tag values).Related Expr.Sheds (op.act tag' values') :=
  act_related (likeness_sheds tag tag') (fun _ _ _ he => he.render_eq) h

theorem Cause.Related.message_eq {cause cause' : Cause ν τ} (h : cause.Related Expr.Sheds cause') :
    cause'.message = cause.message := by
  cases h with
  | unexpected op wanted hfound => rw [message, message, hfound.render_eq]
  | notNullable hfound | notApplicable hfound => rw [message, message, hfound.render_eq]
  | croaked hmessage => exact hmessage.render_eq
  | _ => rfl

namespace Failure.Related

variable {f f' : Fault ν τ}

/-- **Two faults are told in the same words**: the category, the message, the stack and the
report. -/
theorem told_eq (h : (Failure.fault f).Related Expr.Sheds (.fault f')) :
    f'.cause.category = f.cause.category ∧ f'.cause.message = f.cause.message ∧
      f'.stack.map Stack.render = f.stack.map Stack.render ∧ f'.report = f.report := by
  cases h with
  | fault hcause hstack =>
    refine ⟨hcause.category_eq, hcause.message_eq, ?_⟩
    simp only [Fault.report, hcause.category_eq, hcause.message_eq]
    cases hstack with
    | none => exact ⟨rfl, rfl⟩
    | some hvalues =>
      simp only [Option.map_some, render_sheds hvalues, preview_sheds hvalues, and_self]

theorem of_fault {failure' : Failure ν τ} (h : (Failure.fault f).Related Expr.Sheds failure') :
    ∃ f', failure' = .fault f' := by
  cases h
  exact ⟨_, rfl⟩

end Failure.Related

/-! ## Where two runs stand -/

/-- The second move is the first with some comments less in what is read next and in bodies. -/
structure Move.Sheds (move move' : Move ν τ) : Prop where
  front : Thinned Expr.Sheds move.front move'.front
  values : List.Forall₂ Expr.Sheds move.values move'.values

/-- The second state is the first with some comments less to be read and in bodies, and it has not
taken more steps to come there. -/
structure State.Sheds (s s' : State ν τ) : Prop where
  pending : Thinned Expr.Sheds s.pending s'.pending
  values : List.Forall₂ Expr.Sheds s.values s'.values
  steps : s'.steps ≤ s.steps

/-- The two stand in such states, and both go on or both have ended in the same way. -/
inductive Status.Sheds : Status ν τ → Status ν τ → Prop where
  | running {s s' : State ν τ} : s.Sheds s' → Sheds (.running s) (.running s')
  | finished {s s' : State ν τ} : s.Sheds s' → Sheds (.finished s) (.finished s')
  | failed {s s' : State ν τ} {failure failure' : Failure ν τ} :
    s.Sheds s' → failure.Related Expr.Sheds failure' →
    Sheds (.failed s failure) (.failed s' failure')

/-- The two come to stacks that differ in comments of bodies, or to failures that differ so. -/
inductive Result.Sheds : Result ν τ → Result ν τ → Prop where
  | ok {final final' : Stack ν τ} :
    List.Forall₂ Expr.Sheds final final' → Sheds (.ok final) (.ok final')
  | error {failure failure' : Failure ν τ} :
    failure.Related Expr.Sheds failure' → Sheds (.error failure) (.error failure')

namespace Status.Sheds

variable {status status' : Status ν τ} {r r' : Result ν τ}

theorem steps_le (h : status.Sheds status') : status'.state.steps ≤ status.state.steps := by
  cases h with
  | running h | finished h => exact h.steps
  | failed h _ => exact h.steps

theorem result? (h : status.Sheds status') (hr : status.result? = some r) :
    ∃ r', status'.result? = some r' ∧ r.Sheds r' := by
  cases h with
  | running => cases hr
  | finished h =>
    cases hr
    exact ⟨_, rfl, .ok h.values⟩
  | failed _ hfailure =>
    cases hr
    exact ⟨_, rfl, .error hfailure⟩

theorem result?_back (h : status.Sheds status') (hr : status'.result? = some r') :
    ∃ r, status.result? = some r := by
  cases h with
  | running => cases hr
  | finished => exact ⟨_, rfl⟩
  | failed => exact ⟨_, rfl⟩

end Status.Sheds

/-! ## One step -/

section Steps

variable {stamp : Nat → τ} {m : Machine Primitive τ}

/-- **Reading an expression that both have** comes to moves that differ in comments alone, or to
such failures. -/
theorem interpret_sheds {e e' : Expr Primitive τ} {values values' : Stack Primitive τ}
    (he : e.Sheds e') (h : List.Forall₂ Expr.Sheds values values') (tag tag' : τ) :
    (∃ move move', interpret (hostWith stamp) tag values e = .ok move ∧
      interpret (hostWith stamp) tag' values' e' = .ok move' ∧ move.Sheds move') ∨
    ∃ failure failure', interpret (hostWith stamp) tag values e = .error failure ∧
      interpret (hostWith stamp) tag' values' e' = .error failure' ∧
      failure.Related Expr.Sheds failure' := by
  cases e with
  | word name =>
    have hfound := lookup_sheds h name
    cases he
    simp only [interpret]
    generalize Stack.lookup name values = found, Stack.lookup name values' = found' at hfound
    cases hfound with
    | none => exact .inl ⟨_, _, rfl, rfl, .nil, .cons (.same _) h⟩
    | some hbody => exact .inl ⟨_, _, rfl, rfl, hbody, h⟩
  | native op own =>
    have hact := act_sheds op tag tag' h
    cases he
    simp only [interpret, hostWith]
    generalize op.act tag values = outcome, op.act tag' values' = outcome' at hact
    cases hact with
    | applied hfront hbase => exact .inl ⟨_, _, rfl, rfl, .of_forall₂ hfront, hbase⟩
    | deferred => exact .inl ⟨_, _, rfl, rfl, .nil, .cons (.same _) h⟩
    | failed hfailure => exact .inr ⟨_, _, rfl, rfl, hfailure.located h⟩
  | comment text =>
    cases he
    exact .inl ⟨_, _, rfl, rfl, .nil, h⟩
  | quot items =>
    obtain ⟨items', rfl, hitems⟩ := he.of_quot
    exact .inl ⟨_, _, rfl, rfl, .nil, .cons (.quot hitems) h⟩
  | pair a b =>
    obtain ⟨a', b', rfl, ha, hb⟩ := he.of_pair
    exact .inl ⟨_, _, rfl, rfl, .nil, .cons (.pair ha hb) h⟩
  | defn name body own =>
    obtain ⟨body', own', rfl, hbody⟩ := he.of_defn
    exact .inl ⟨_, _, rfl, rfl, .nil, .cons (.defn hbody) h⟩
  | num | bool | chr =>
    cases he
    exact .inl ⟨_, _, rfl, rfl, .nil, .cons (.same _) h⟩

/-- **Where both have the next expression, they take a step together.** -/
theorem step_kept (hm : m.host = hostWith stamp) (hlimit : m.limit = none)
    {e e' : Expr Primitive τ} {rest rest' : List (Expr Primitive τ)}
    {values values' : Stack Primitive τ} {steps steps' : Nat} (he : e.Sheds e')
    (hrest : Thinned Expr.Sheds rest rest') (h : List.Forall₂ Expr.Sheds values values')
    (hsteps : steps' ≤ steps) (events events' : List Event) :
    (m.step ⟨e :: rest, values, steps, events⟩).Sheds
      (m.step ⟨e' :: rest', values', steps', events'⟩) := by
  have hnext : steps' + 1 ≤ steps + 1 := Nat.succ_le_succ hsteps
  rw [Machine.step_of_unlimited hlimit, Machine.step_of_unlimited hlimit, hm]
  rcases interpret_sheds he h ((hostWith stamp).stamp (steps + 1))
      ((hostWith stamp).stamp (steps' + 1)) with
    ⟨move, move', hmove, hmove', hsheds⟩ | ⟨failure, failure', hfailed, hfailed', hsheds⟩
  · rw [hmove, hmove']
    exact .running ⟨hsheds.front.reverse.append hrest, hsheds.values, hnext⟩
  · rw [hfailed, hfailed']
    exact .failed ⟨hrest, h, hnext⟩ hsheds

/-- A comment vanishes. -/
theorem step_comment (hlimit : m.limit = none) (text : String) (rest : List (Expr Primitive τ))
    (values : Stack Primitive τ) (steps : Nat) (events : List Event) :
    m.step ⟨.comment text :: rest, values, steps, events⟩ =
      .running ⟨rest, values, steps + 1, events⟩ := by
  rw [Machine.step_of_unlimited hlimit, interpret_erase]
  rfl

/-! ## Runs -/

/-- After a step together both go on, or both have ended for good. -/
theorem run_kept {s s' : State Primitive τ} (h : (m.step s).Sheds (m.step s')) :
    (∃ t t', m.step s = .running t ∧ m.step s' = .running t' ∧ t.Sheds t') ∨
      ∀ n n', (m.run (n + 1) s).Sheds (m.run (n' + 1) s') := by
  simp only [Machine.run]
  generalize m.step s = status, m.step s' = status' at h
  cases h with
  | running h => exact .inl ⟨_, _, rfl, rfl, h⟩
  | finished h => exact .inr fun _ _ => .finished h
  | failed h hfailure => exact .inr fun _ _ => .failed h hfailure

/-- **However far the first run is, somewhere the second stands so.** -/
theorem exists_run_sheds (hm : m.host = hostWith stamp) (hlimit : m.limit = none) (n : Nat)
    {s s' : State Primitive τ} (h : s.Sheds s') : ∃ n', (m.run n s).Sheds (m.run n' s') := by
  induction n generalizing s s' with
  | zero => exact ⟨0, .running h⟩
  | succ n ih =>
    obtain ⟨pending, values, steps, events⟩ := s
    obtain ⟨pending', values', steps', events'⟩ := s'
    obtain ⟨hpending, hvalues, hsteps⟩ := h
    cases hpending with
    | nil => exact ⟨1, .finished ⟨.nil, hvalues, hsteps⟩⟩
    | keep he hrest =>
      rcases run_kept (step_kept hm hlimit he hrest hvalues hsteps events events') with
        ⟨t, t', ht, ht', hsheds⟩ | hended
      · obtain ⟨n', hn'⟩ := ih hsheds
        refine ⟨n' + 1, ?_⟩
        rw [Machine.run, Machine.run, ht, ht']
        exact hn'
      · exact ⟨1, hended n 0⟩
    | drop hrest =>
      -- The first run takes this step alone.
      rw [Machine.run, step_comment hlimit]
      exact ih ⟨hrest, hvalues, Nat.le_succ_of_le hsteps⟩

/-- **However far the second run is, somewhere the first stands so**: of comments that only it has
there are so many and no more before the next expression that both have. -/
theorem exists_run_sheds_back (hm : m.host = hostWith stamp) (hlimit : m.limit = none) (n' : Nat)
    {s s' : State Primitive τ} (h : s.Sheds s') : ∃ n, (m.run n s).Sheds (m.run n' s') := by
  induction n' generalizing s s' with
  | zero => exact ⟨0, .running h⟩
  | succ n' ih =>
    obtain ⟨pending, values, steps, events⟩ := s
    obtain ⟨pending', values', steps', events'⟩ := s'
    obtain ⟨hpending, hvalues, hsteps⟩ := h
    dsimp only at hpending hvalues hsteps
    induction hpending generalizing steps with
    | nil => exact ⟨1, .finished ⟨.nil, hvalues, hsteps⟩⟩
    | keep he hrest =>
      rcases run_kept (step_kept hm hlimit he hrest hvalues hsteps events events') with
        ⟨t, t', ht, ht', hsheds⟩ | hended
      · obtain ⟨n, hn⟩ := ih hsheds
        refine ⟨n + 1, ?_⟩
        rw [Machine.run, Machine.run, ht, ht']
        exact hn
      · exact ⟨1, hended 0 n'⟩
    | drop _ ihdrop =>
      obtain ⟨n, hn⟩ := ihdrop (steps + 1) (Nat.le_succ_of_le hsteps)
      refine ⟨n + 1, ?_⟩
      rw [Machine.run, step_comment hlimit]
      exact hn

end Steps

/-! ## Programs -/

theorem State.sheds_start (p : List (Expr ν τ)) (base : Stack ν τ) :
    (State.start p base).Sheds
      (.start ((p.filter (!·.isComment)).map Expr.bare) (base.map Expr.bare)) where
  pending := (thinned_bare p).reverse
  values := forall₂_map_bare base
  steps := Nat.le_refl 0

section Programs

variable {stamp : Nat → τ} {m : Machine Primitive τ} {p : List (Expr Primitive τ)}
  {base : Stack Primitive τ}

/-- What the program comes to, it comes to without the comments, and not later. -/
theorem exists_yields_bare (hm : m.host = hostWith stamp) (hlimit : m.limit = none) {k : Nat}
    {r : Result Primitive τ} (h : m.Yields p base k r) :
    ∃ k' r', k' ≤ k ∧ r.Sheds r' ∧
      m.Yields ((p.filter (!·.isComment)).map Expr.bare) (base.map Expr.bare) k' r' := by
  obtain ⟨n, hr, rfl⟩ := h
  obtain ⟨n', hsheds⟩ := exists_run_sheds hm hlimit n (State.sheds_start p base)
  obtain ⟨r', hr', hresult⟩ := hsheds.result? hr
  exact ⟨_, r', hsheds.steps_le, hresult, n', hr', rfl⟩

/-- What ends without the comments ends with them. -/
theorem exists_yields_of_bare (hm : m.host = hostWith stamp) (hlimit : m.limit = none) {k' : Nat}
    {r' : Result Primitive τ}
    (h : m.Yields ((p.filter (!·.isComment)).map Expr.bare) (base.map Expr.bare) k' r') :
    ∃ k r, m.Yields p base k r := by
  obtain ⟨n', hr', -⟩ := h
  obtain ⟨n, hsheds⟩ := exists_run_sheds_back hm hlimit n' (State.sheds_start p base)
  obtain ⟨r, hr⟩ := hsheds.result?_back hr'
  exact ⟨_, r, n, hr, rfl⟩

end Programs

/-- **Comments that are read make no difference.** Without those at its top level, and without those
that lie directly in bodies of definitions, its own and those on the stack, a program comes to an
end exactly if it did before, and in no more steps. The stack that it leaves is the one that it left
before, but for comments in bodies, and shows as that did. If it fails, then as before: with the
same category, the same message and the same stack shown. -/
theorem comments_inert (stamp : Nat → τ) (watched : Bool) (p : List (Expr Primitive τ))
    (base : Stack Primitive τ) :
    let m : Machine Primitive τ := ⟨hostWith stamp, none, watched⟩
    let p' := (p.filter (!·.isComment)).map Expr.bare
    let base' := base.map Expr.bare
    ((∃ k' r', m.Yields p' base' k' r') ↔ ∃ k r, m.Yields p base k r) ∧
    (∀ k final, m.Yields p base k (.ok final) →
      ∃ k' final', k' ≤ k ∧ m.Yields p' base' k' (.ok final') ∧
        List.Forall₂ Expr.Sheds final final' ∧ Stack.render final' = Stack.render final) ∧
    (∀ k fault, m.Yields p base k (.error (.fault fault)) →
      ∃ k' fault', k' ≤ k ∧ m.Yields p' base' k' (.error (.fault fault')) ∧
        fault'.cause.category = fault.cause.category ∧
        fault'.cause.message = fault.cause.message ∧
        fault'.stack.map Stack.render = fault.stack.map Stack.render ∧
        fault'.report = fault.report) ∧
    ∀ k b, m.Yields p base k (.error (.breakdown b)) →
      ∃ k', k' ≤ k ∧ m.Yields p' base' k' (.error (.breakdown b)) := by
  intro m p' base'
  refine ⟨⟨?_, ?_⟩, ?_, ?_, ?_⟩
  · rintro ⟨k', r', h⟩
    exact exists_yields_of_bare (m := m) rfl rfl h
  · rintro ⟨k, r, h⟩
    obtain ⟨k', r', -, -, h'⟩ := exists_yields_bare (m := m) rfl rfl h
    exact ⟨k', r', h'⟩
  · intro k final h
    obtain ⟨k', r', hk, hresult, h'⟩ := exists_yields_bare (m := m) rfl rfl h
    cases hresult with
    | ok hfinal => exact ⟨k', _, hk, h', hfinal, render_sheds hfinal⟩
  · intro k fault h
    obtain ⟨k', r', hk, hresult, h'⟩ := exists_yields_bare (m := m) rfl rfl h
    cases hresult with
    | error hfailure =>
      obtain ⟨fault', rfl⟩ := hfailure.of_fault
      exact ⟨k', fault', hk, h', hfailure.told_eq⟩
  · intro k b h
    obtain ⟨k', r', hk, hresult, h'⟩ := exists_yields_bare (m := m) rfl rfl h
    cases hresult with
    | error hfailure =>
      cases hfailure
      exact ⟨k', hk, h'⟩

/-- A word is called whose body has a comment on either side. Without them, and without the one
behind the definition, the stack that is left shows as it did. -/
theorem comments_inert_called :
    let m : Machine Primitive Unit := ⟨hostWith fun _ => (), none, false⟩
    let body : List (Expr Primitive Unit) := [.comment "one", .num 1, .comment "done"]
    m.Yields [.word "f", .defn "f" body (), .comment "f"] [] 6 (.ok [.num 1, .defn "f" body ()]) ∧
      ∃ k' final', k' ≤ 6 ∧ m.Yields [.word "f", .defn "f" [.num 1] ()] [] k' (.ok final') ∧
        Stack.render final' = Stack.render [.num 1, .defn "f" body ()] := by
  intro m body
  have hcommented : m.Yields [.word "f", .defn "f" body (), .comment "f"] [] 6
      (.ok [.num 1, .defn "f" body ()]) := ⟨7, rfl, rfl⟩
  obtain ⟨-, hok, -⟩ := comments_inert (fun _ => ()) false
    [.word "f", .defn "f" body (), .comment "f"] []
  obtain ⟨k', final', hk, hyields, -, hrender⟩ := hok 6 _ hcommented
  exact ⟨hcommented, k', final', hk, hyields, hrender⟩

end Leftward
