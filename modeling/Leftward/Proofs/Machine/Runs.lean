import Leftward.Machine

/-!
# Runs — what a machine without a limit comes to

`Machine.run` answers for a number of steps, so "the reduction ends in this stack" is a statement
with a fuel in it, and fuels have to be added up whenever one part of a program is followed by
another. `Runs` is the same statement without the fuel: a derivation with one rule for each way a
step can go, indexed by how many steps were made.

**The two agree** (`yields_iff_runs`): a machine without a limit yields a result after `k` steps
exactly if `Runs` derives it with `k`. And **runs compose** (`Runs.append`, `Runs.split`): what is
pending further back is not looked at before everything in front of it has been read, so a run on
two pieces of program is a run on the one and then, from the stack that it leaves, on the other.

The tag of a step is left open in `Runs`, since only a host knows what it hands out. Where natives
are functions of the stack alone (`Host.Pure`) it makes no difference.
-/

namespace Leftward

variable {ν τ : Type}

/-- The machine reduces the program onto the base, in so many steps, to the result. -/
def Machine.Yields (m : Machine ν τ) (program : List (Expr ν τ)) (base : Stack ν τ) (steps : Nat)
    (result : Result ν τ) : Prop :=
  ∃ fuel, (m.run fuel (.start program base)).result? = some result ∧
    (m.run fuel (.start program base)).state.steps = steps

/-- No native is told apart from itself by the tag that it is given: natives are functions of the
stack. -/
def Host.Pure (host : Host ν τ) : Prop :=
  ∀ op s t values, host.act op s values = host.act op t values

theorem Host.Pure.interpret {host : Host ν τ} (hp : host.Pure) (s t : τ) (values : Stack ν τ)
    (e : Expr ν τ) : interpret host s values e = interpret host t values e := by
  cases e with
  | native op own => simp only [Leftward.interpret, hp op s t values]
  | _ => rfl

/-! ## What a step that does something does -/

section Interpret

variable {host : Host ν τ} {values : Stack ν τ}

theorem interpret_resolve {name : String} {body : List (Expr ν τ)}
    (hb : Stack.lookup name values = some body) (tag : τ) :
    interpret host tag values (.word name) =
      .ok ⟨body, values, some (.resolve name body.length)⟩ := by
  simp only [interpret, hb]

theorem interpret_fire {op : ν} {tag : τ} {front base : List (Expr ν τ)}
    (ha : host.act op tag values = .applied front base) (own : τ) :
    interpret host tag values (.native op own) = .ok ⟨front, base, none⟩ := by
  simp only [interpret, ha]

theorem interpret_decline {op : ν} {tag : τ} (ha : host.act op tag values = .deferred) (own : τ) :
    interpret host tag values (.native op own) =
      .ok ⟨[], .native op own :: values, some (.defer (host.name op))⟩ := by
  simp only [interpret, ha]

theorem interpret_fail {op : ν} {tag : τ} {failure : Failure ν τ}
    (ha : host.act op tag values = .failed failure) (own : τ) :
    interpret host tag values (.native op own) = .error (failure.located values) := by
  simp only [interpret, ha]

theorem interpret_erase (tag : τ) {text : String} :
    interpret host tag values (.comment text) = .ok ⟨[], values, none⟩ := rfl

end Interpret

/-! ## Runs -/

/-- Reading what is pending on top of a stack comes to a result in so many steps. -/
inductive Runs (host : Host ν τ) : Nat → List (Expr ν τ) → Stack ν τ → Result ν τ → Prop where
  -- Nothing is left to be read.
  | done {values : Stack ν τ} : Runs host 0 [] values (.ok values)
  -- One expression is read, and what it leaves in front is read next.
  | step {k : Nat} {e : Expr ν τ} {rest : List (Expr ν τ)} {values : Stack ν τ} {tag : τ}
      {move : Move ν τ} {result : Result ν τ} :
      interpret host tag values e = .ok move →
      Runs host k (move.front.reverse ++ rest) move.values result →
      Runs host (k + 1) (e :: rest) values result
  -- The expression to be read cannot be.
  | fail {e : Expr ν τ} {rest : List (Expr ν τ)} {values : Stack ν τ} {tag : τ}
      {failure : Failure ν τ} :
      interpret host tag values e = .error failure →
      Runs host 1 (e :: rest) values (.error failure)

variable {host : Host ν τ}

namespace Runs

/-- **First what is in front, then what is behind it.** -/
theorem append {a b : Nat} {p q : List (Expr ν τ)} {values between : Stack ν τ}
    {result : Result ν τ} (hp : Runs host a p values (.ok between))
    (hq : Runs host b q between result) : Runs host (a + b) (p ++ q) values result := by
  generalize hr : (Except.ok between : Result ν τ) = r at hp
  induction hp with
  | done =>
    cases hr
    simpa using hq
  | step hi _ ih =>
    rw [Nat.succ_add]
    exact .step hi (by simpa using ih hr)
  | fail hi => cases hr

/-- What fails in front fails whatever is behind it. -/
theorem append_error {a : Nat} {p : List (Expr ν τ)} {values : Stack ν τ}
    {failure : Failure ν τ} (hp : Runs host a p values (.error failure))
    (q : List (Expr ν τ)) : Runs host a (p ++ q) values (.error failure) := by
  generalize hr : (Except.error failure : Result ν τ) = r at hp
  induction hp with
  | done => cases hr
  | step hi _ ih => exact .step hi (by simpa using ih hr)
  | fail hi =>
    cases hr
    exact .fail hi

/-- **A run on two pieces is a run on the first**, which fails or leaves a stack for a run on the
second. -/
theorem split {n : Nat} {p q : List (Expr ν τ)} {values : Stack ν τ} {result : Result ν τ}
    (h : Runs host n (p ++ q) values result) :
    (∃ failure, result = .error failure ∧ Runs host n p values (.error failure)) ∨
    ∃ a b between, n = a + b ∧ Runs host a p values (.ok between) ∧
      Runs host b q between result := by
  generalize hpq : p ++ q = pending at h
  induction h generalizing p with
  | done =>
    obtain ⟨rfl, rfl⟩ := List.append_eq_nil_iff.mp hpq
    exact .inr ⟨0, 0, _, rfl, .done, .done⟩
  | @step k e rest values tag move result hi hrun ih =>
    cases p with
    | nil =>
      subst hpq
      exact .inr ⟨0, k + 1, values, by omega, .done, .step hi hrun⟩
    | cons e' p' =>
      obtain ⟨rfl, rfl⟩ := List.cons.inj hpq
      have hpending : (move.front.reverse ++ p') ++ q = move.front.reverse ++ (p' ++ q) :=
        List.append_assoc _ _ _
      rcases ih hpending with
        ⟨failure, hr, hp⟩ | ⟨a, b, between, hk, hp, hq⟩
      · exact .inl ⟨failure, hr, .step hi hp⟩
      · exact .inr ⟨a + 1, b, between, by omega, .step hi hp, hq⟩
  | @fail e rest values tag failure hi =>
    cases p with
    | nil =>
      subst hpq
      exact .inr ⟨0, 1, values, rfl, .done, .fail hi⟩
    | cons e' p' =>
      obtain ⟨rfl, rfl⟩ := List.cons.inj hpq
      exact .inl ⟨failure, rfl, .fail hi⟩

/-- Natives that are functions of the stack leave a run no choice. -/
theorem unique (hp : host.Pure) {a b : Nat} {pending : List (Expr ν τ)} {values : Stack ν τ}
    {r s : Result ν τ} (hr : Runs host a pending values r) (hs : Runs host b pending values s) :
    a = b ∧ r = s := by
  induction hr generalizing b with
  | done =>
    cases hs
    exact ⟨rfl, rfl⟩
  | step hi _ ih =>
    cases hs with
    | step hj hrun =>
      rw [hp.interpret _ _ _ _, hi] at hj
      cases hj
      obtain ⟨rfl, rfl⟩ := ih hrun
      exact ⟨rfl, rfl⟩
    | fail hj =>
      rw [hp.interpret _ _ _ _, hi] at hj
      cases hj
  | fail hi =>
    cases hs with
    | step hj _ =>
      rw [hp.interpret _ _ _ _, hi] at hj
      cases hj
    | fail hj =>
      rw [hp.interpret _ _ _ _, hi] at hj
      cases hj
      exact ⟨rfl, rfl⟩

end Runs

/-! ## The machine runs -/

/-- What has come to a stack has finished on it. -/
theorem Status.eq_finished_of_result? {status : Status ν τ} {final : Stack ν τ}
    (h : status.result? = some (.ok final)) : ∃ t, status = .finished t ∧ t.values = final := by
  cases status with
  | finished t =>
    cases h
    exact ⟨t, rfl, rfl⟩
  | running | failed => cases h

theorem Status.eq_failed_of_result? {status : Status ν τ} {failure : Failure ν τ}
    (h : status.result? = some (.error failure)) : ∃ t, status = .failed t failure := by
  cases status with
  | failed t found =>
    cases h
    exact ⟨t, rfl⟩
  | running | finished => cases h

namespace Machine

variable {m : Machine ν τ}

theorem exceeded_of_unlimited (hm : m.limit = none) (number : Nat) : m.exceeded number = none := by
  simp [exceeded, hm]

/-- A step of a machine without a limit is the reading of an expression and nothing more. -/
theorem step_of_unlimited (hm : m.limit = none) (e : Expr ν τ) (rest : List (Expr ν τ))
    (values : Stack ν τ) (steps : Nat) (events : List Event) :
    m.step ⟨e :: rest, values, steps, events⟩ =
      match interpret m.host (m.host.stamp (steps + 1)) values e with
      | .ok move =>
        .running ⟨move.front.reverse ++ rest, move.values, steps + 1, m.note move.event events⟩
      | .error failure => .failed ⟨rest, values, steps + 1, events⟩ failure := by
  have hexceeded := exceeded_of_unlimited hm (steps + 1)
  cases hi : interpret m.host (m.host.stamp (steps + 1)) values e with
  | ok move => simp only [step, hexceeded, hi]
  | error failure => simp only [step, hexceeded, hi]

/-- **What a step that goes on has done**: within the limit it has read an expression, and it has
put the front of the move in front of the rest. -/
theorem step_eq_running {s t : State ν τ} (h : m.step s = .running t) :
    ∃ e rest move, s.pending = e :: rest ∧ m.exceeded (s.steps + 1) = none ∧
      interpret m.host (m.host.stamp (s.steps + 1)) s.values e = .ok move ∧
      t = ⟨move.front.reverse ++ rest, move.values, s.steps + 1, m.note move.event s.events⟩ := by
  obtain ⟨pending, values, steps, events⟩ := s
  cases pending with
  | nil => cases h
  | cons e rest =>
    simp only [step] at h
    cases hx : m.exceeded (steps + 1) with
    | some limit =>
      rw [hx] at h
      cases h
    | none =>
      rw [hx] at h
      cases hi : interpret m.host (m.host.stamp (steps + 1)) values e with
      | ok move =>
        rw [hi] at h
        cases h
        exact ⟨e, rest, move, rfl, rfl, hi, rfl⟩
      | error failure =>
        rw [hi] at h
        cases h

/-- **What a step that fails has done**: it has taken an expression off, and either that was one
step too many or the expression could not be read. -/
theorem step_eq_failed {s t : State ν τ} {failure : Failure ν τ}
    (h : m.step s = .failed t failure) :
    ∃ e rest, s.pending = e :: rest ∧ t = ⟨rest, s.values, s.steps + 1, s.events⟩ ∧
      ((∃ limit, m.exceeded (s.steps + 1) = some limit ∧
          failure = .fault ⟨.stepLimit limit, some s.values⟩) ∨
        interpret m.host (m.host.stamp (s.steps + 1)) s.values e = .error failure) := by
  obtain ⟨pending, values, steps, events⟩ := s
  cases pending with
  | nil => cases h
  | cons e rest =>
    simp only [step] at h
    cases hx : m.exceeded (steps + 1) with
    | some limit =>
      rw [hx] at h
      cases h
      exact ⟨e, rest, rfl, rfl, .inl ⟨limit, rfl, rfl⟩⟩
    | none =>
      rw [hx] at h
      cases hi : interpret m.host (m.host.stamp (steps + 1)) values e with
      | ok move =>
        rw [hi] at h
        cases h
      | error found =>
        rw [hi] at h
        cases h
        exact ⟨e, rest, rfl, rfl, .inr hi⟩

/-- The machine finishes where nothing is left to be read, and nowhere else. -/
theorem step_eq_finished_iff {s t : State ν τ} :
    m.step s = .finished t ↔ s.pending = [] ∧ t = s := by
  constructor
  · intro h
    unfold step at h
    split at h
    · rename_i hnil
      cases h
      exact ⟨hnil, rfl⟩
    · dsimp only at h
      split at h
      · cases h
      · split at h <;> cases h
  · intro h
    obtain ⟨hnil, rfl⟩ := h
    simp only [step, hnil]

/-- Every step is counted. -/
theorem steps_of_run {n : Nat} {s t : State ν τ} (h : m.run n s = .running t) :
    t.steps = s.steps + n := by
  induction n generalizing s with
  | zero =>
    cases h
    rfl
  | succ n ih =>
    rw [run] at h
    cases hstep : m.step s with
    | running u =>
      rw [hstep] at h
      obtain ⟨_, _, _, _, _, _, hu⟩ := step_eq_running hstep
      have hcount : u.steps = s.steps + 1 := by rw [hu]
      rw [ih h, hcount]
      omega
    | finished u =>
      rw [hstep] at h
      cases h
    | failed u failure =>
      rw [hstep] at h
      cases h

/-- A run that has finished was before that at the end of what was to be read. -/
theorem exists_run_of_finished {n : Nat} {s t : State ν τ} (h : m.run n s = .finished t) :
    ∃ k, k < n ∧ m.run k s = .running t ∧ t.pending = [] := by
  induction n generalizing s with
  | zero => cases h
  | succ n ih =>
    rw [run] at h
    cases hstep : m.step s with
    | running u =>
      rw [hstep] at h
      obtain ⟨k, hk, hrun, ht⟩ := ih h
      exact ⟨k + 1, Nat.succ_lt_succ hk, by rw [run, hstep]; exact hrun, ht⟩
    | finished u =>
      rw [hstep] at h
      cases h
      obtain ⟨hnil, rfl⟩ := step_eq_finished_iff.mp hstep
      exact ⟨0, Nat.succ_pos n, rfl, hnil⟩
    | failed u failure =>
      rw [hstep] at h
      cases h

/-- A run that has failed was before that in a state from which the next step fails. -/
theorem exists_run_of_failed {n : Nat} {s t : State ν τ} {failure : Failure ν τ}
    (h : m.run n s = .failed t failure) :
    ∃ k u, k < n ∧ m.run k s = .running u ∧ m.step u = .failed t failure := by
  induction n generalizing s with
  | zero => cases h
  | succ n ih =>
    rw [run] at h
    cases hstep : m.step s with
    | running v =>
      rw [hstep] at h
      obtain ⟨k, u, hk, hrun, hu⟩ := ih h
      exact ⟨k + 1, u, Nat.succ_lt_succ hk, by rw [run, hstep]; exact hrun, hu⟩
    | finished v =>
      rw [hstep] at h
      cases h
    | failed v found =>
      rw [hstep] at h
      cases h
      exact ⟨0, s, Nat.succ_pos n, rfl, hstep⟩

/-- A step is counted before it can fail. -/
theorem steps_of_failed {s t : State ν τ} {failure : Failure ν τ}
    (h : m.step s = .failed t failure) : t.steps = s.steps + 1 := by
  obtain ⟨_, _, _, rfl, _⟩ := step_eq_failed h
  rfl

/-- A run that has come to an end stays there. -/
theorem run_of_ended {a : Nat} {s : State ν τ} {result : Result ν τ}
    (h : (m.run a s).result? = some result) (b : Nat) : m.run (a + b) s = m.run a s := by
  rw [run_add]
  cases hrun : m.run a s with
  | running t =>
    rw [hrun] at h
    cases h
  | finished t => rfl
  | failed t failure => rfl

/-- What a machine comes to, and after how many steps, is one thing. -/
theorem Yields.unique {program : List (Expr ν τ)} {base : Stack ν τ} {j k : Nat}
    {r s : Result ν τ} (hr : m.Yields program base j r) (hs : m.Yields program base k s) :
    j = k ∧ r = s := by
  obtain ⟨a, ha, hj⟩ := hr
  obtain ⟨b, hb, hk⟩ := hs
  have hsame : m.run a (.start program base) = m.run b (.start program base) := by
    rw [← run_of_ended ha b, ← run_of_ended hb a, Nat.add_comm]
  rw [hsame] at ha hj
  exact ⟨hj.symm.trans hk, Option.some.inj (ha.symm.trans hb)⟩

/-- A reduction ends in a stack if everything has been read and the stack is there. -/
theorem yields_ok_iff {program : List (Expr ν τ)} {base final : Stack ν τ} {k : Nat} :
    m.Yields program base k (.ok final) ↔
      ∃ t, m.run k (.start program base) = .running t ∧ t.pending = [] ∧ t.values = final := by
  constructor
  · intro h
    obtain ⟨fuel, hr, hk⟩ := h
    cases hrun : m.run fuel (.start program base) with
    | running t => simp [hrun, Status.result?] at hr
    | failed t failure => simp [hrun, Status.result?] at hr
    | finished t =>
      rw [hrun] at hr hk
      obtain ⟨j, -, hj, ht⟩ := exists_run_of_finished hrun
      have hjk : j = k := by
        rw [← hk, Status.state, steps_of_run hj]
        exact (Nat.zero_add j).symm
      simp only [Status.result?, Option.some.injEq, Except.ok.injEq] at hr
      exact ⟨t, hjk ▸ hj, ht, hr⟩
  · intro h
    obtain ⟨t, hrun, ht, hvalues⟩ := h
    have hend : m.run (k + 1) (.start program base) = .finished t := by
      rw [run_add, hrun]
      simp only [run, step_eq_finished_iff.mpr ⟨ht, rfl⟩]
    refine ⟨k + 1, ?_, ?_⟩
    · rw [hend, Status.result?, hvalues]
    · rw [hend, Status.state, steps_of_run hrun]
      exact Nat.zero_add k

/-- A reduction ends in a failure if its last step is the one that fails. -/
theorem yields_error_iff {program : List (Expr ν τ)} {base : Stack ν τ} {k : Nat}
    {failure : Failure ν τ} :
    m.Yields program base k (.error failure) ↔
      ∃ t, m.run k (.start program base) = .failed t failure ∧ t.steps = k := by
  constructor
  · intro h
    obtain ⟨fuel, hr, hk⟩ := h
    cases hrun : m.run fuel (.start program base) with
    | running t => simp [hrun, Status.result?] at hr
    | finished t => simp [hrun, Status.result?] at hr
    | failed t found =>
      rw [hrun] at hr hk
      cases hr
      obtain ⟨j, u, -, hu, hfails⟩ := exists_run_of_failed hrun
      have hjk : j + 1 = k := by
        rw [← hk, Status.state, steps_of_failed hfails, steps_of_run hu]
        exact congrArg (· + 1) (Nat.zero_add j).symm
      refine ⟨t, ?_, hk⟩
      rw [← hjk, run_add, hu]
      simp only [run, hfails]
  · intro h
    obtain ⟨t, hrun, ht⟩ := h
    exact ⟨k, by rw [hrun]; rfl, by rw [hrun]; exact ht⟩

/-- What the machine comes to, a run comes to. -/
theorem runs_of_run (hm : m.limit = none) {fuel : Nat} {s : State ν τ} {result : Result ν τ}
    (h : (m.run fuel s).result? = some result) :
    ∃ n, Runs m.host n s.pending s.values result ∧ (m.run fuel s).state.steps = s.steps + n := by
  induction fuel generalizing s with
  | zero => cases h
  | succ fuel ih =>
    obtain ⟨pending, values, steps, events⟩ := s
    cases pending with
    | nil =>
      simp only [run, step, Status.result?, Option.some.injEq] at h ⊢
      subst h
      exact ⟨0, .done, rfl⟩
    | cons e rest =>
      rw [run, step_of_unlimited hm] at h ⊢
      cases hi : interpret m.host (m.host.stamp (steps + 1)) values e with
      | ok move =>
        rw [hi] at h
        obtain ⟨n, hrun, hsteps⟩ := ih h
        exact ⟨n + 1, .step hi hrun, by rw [hsteps]; simp only; omega⟩
      | error failure =>
        rw [hi] at h
        cases h
        exact ⟨1, .fail hi, rfl⟩

/-- What a run comes to, the machine comes to, if tags make no difference. -/
theorem run_of_runs (hm : m.limit = none) (hp : m.host.Pure) {n : Nat}
    {pending : List (Expr ν τ)} {values : Stack ν τ} {result : Result ν τ}
    (h : Runs m.host n pending values result) (steps : Nat) (events : List Event) :
    (m.run (n + 1) ⟨pending, values, steps, events⟩).result? = some result ∧
      (m.run (n + 1) ⟨pending, values, steps, events⟩).state.steps = steps + n := by
  induction h generalizing steps events with
  | done => exact ⟨rfl, rfl⟩
  | step hi _ ih =>
    rw [hp.interpret _ (m.host.stamp (steps + 1)) _ _] at hi
    rw [run, step_of_unlimited hm, hi]
    refine ⟨(ih _ _).1, ?_⟩
    rw [(ih _ _).2]
    omega
  | fail hi =>
    rw [hp.interpret _ (m.host.stamp (steps + 1)) _ _] at hi
    rw [run, step_of_unlimited hm, hi]
    exact ⟨rfl, rfl⟩

/-- **The machine and the derivation agree**, to the step. -/
theorem yields_iff_runs (hm : m.limit = none) (hp : m.host.Pure) {program : List (Expr ν τ)}
    {base : Stack ν τ} {k : Nat} {result : Result ν τ} :
    m.Yields program base k result ↔ Runs m.host k program.reverse base result := by
  constructor
  · intro h
    obtain ⟨fuel, hr, hk⟩ := h
    obtain ⟨n, hrun, hn⟩ := runs_of_run hm hr
    have hkn : k = n := by
      rw [← hk, hn]
      exact Nat.zero_add n
    exact hkn ▸ hrun
  · intro h
    obtain ⟨hr, hk⟩ := run_of_runs hm hp h 0 []
    exact ⟨k + 1, hr, hk.trans (Nat.zero_add k)⟩

end Machine
end Leftward
