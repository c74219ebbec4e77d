import Leftward.Primitive.Action
import Leftward.Proofs.Machine.Runs

/-!
# The limit — a run cut short

A machine with a limit counts a step before it looks at the expression, and stops where the count
is beyond the limit. Up to there **it is the machine without a limit, step by step**
(`run_limited`). So a run that ends within the limit ends as it would have without one, at the
limit itself too; of any other run, endless or only longer, the limit keeps the stack that was
reached with the last step allowed. In particular no limit is ever the cause of another outcome
than that of being exceeded.
-/

namespace Leftward

variable {ν τ : Type}

/-- The machine with a limit on its steps. -/
def Machine.limited (m : Machine ν τ) (limit : Nat) : Machine ν τ := { m with limit := some limit }

namespace Machine

variable {m : Machine ν τ} {limit : Nat}

theorem exceeded_limited_of_le {number : Nat} (h : number ≤ limit) :
    (m.limited limit).exceeded number = none := by
  simp only [exceeded, limited, Option.filter_some]
  rw [if_neg]
  simpa using h

theorem exceeded_limited_of_lt {number : Nat} (h : limit < number) :
    (m.limited limit).exceeded number = some (limit : Int) := by
  simp only [exceeded, limited, Option.filter_some]
  rw [if_pos]
  simpa using h

/-- A step that the limit allows is a step without it. -/
theorem step_limited (hm : m.limit = none) {s : State ν τ} (h : s.steps < limit) :
    (m.limited limit).step s = m.step s := by
  obtain ⟨pending, values, steps, events⟩ := s
  cases pending with
  | nil => rfl
  | cons e rest =>
    have hwithin : (m.limited limit).exceeded (steps + 1) = none := exceeded_limited_of_le h
    have hfree : m.exceeded (steps + 1) = none := exceeded_of_unlimited hm _
    simp only [step, hwithin, hfree]
    rfl

/-- A step beyond the limit fails before the expression is looked at. -/
theorem step_beyond {s : State ν τ} {e : Expr ν τ} {rest : List (Expr ν τ)}
    (hs : s.pending = e :: rest) (h : limit ≤ s.steps) :
    (m.limited limit).step s =
      .failed ⟨rest, s.values, s.steps + 1, s.events⟩
        (.fault ⟨.stepLimit limit, some s.values⟩) := by
  have hbeyond : (m.limited limit).exceeded (s.steps + 1) = some (limit : Int) :=
    exceeded_limited_of_lt (Nat.lt_succ_of_le h)
  simp only [step, hs, hbeyond]

/-- **Up to the limit the run is the one without it.** -/
theorem run_limited (hm : m.limit = none) {n : Nat} {s : State ν τ} (h : s.steps + n ≤ limit) :
    (m.limited limit).run n s = m.run n s := by
  induction n generalizing s with
  | zero => rfl
  | succ n ih =>
    have hfirst : s.steps < limit := by omega
    rw [run, run, step_limited hm hfirst]
    cases hstep : m.step s with
    | running t =>
      obtain ⟨_, _, _, _, _, _, rfl⟩ := step_eq_running hstep
      apply ih
      show s.steps + 1 + n ≤ limit
      omega
    | finished t => rfl
    | failed t failure => rfl

/-! ## From the beginning -/

/-- No run begins more steps than it has fuel. -/
theorem steps_run_le (m : Machine ν τ) (n : Nat) (s : State ν τ) :
    (m.run n s).state.steps ≤ s.steps + n := by
  induction n generalizing s with
  | zero => exact Nat.le_refl _
  | succ n ih =>
    rw [run]
    cases hstep : m.step s with
    | running t =>
      obtain ⟨_, _, _, _, _, _, rfl⟩ := step_eq_running hstep
      refine Nat.le_trans (ih _) ?_
      show s.steps + 1 + n ≤ s.steps + (n + 1)
      omega
    | finished t =>
      obtain ⟨-, rfl⟩ := step_eq_finished_iff.mp hstep
      exact Nat.le_add_right _ _
    | failed t failure =>
      show t.steps ≤ s.steps + (n + 1)
      rw [steps_of_failed hstep]
      omega

section Start

variable {program : List (Expr ν τ)} {base : Stack ν τ} {k : Nat} {result : Result ν τ}

/-- A run that has come to an end came to it within its fuel. -/
theorem exists_yields_of_ended {n : Nat}
    (h : (m.run n (.start program base)).result? = some result) :
    ∃ k, k ≤ n ∧ m.Yields program base k result := by
  have hsteps := steps_run_le m n (.start program base)
  refine ⟨_, ?_, n, h, rfl⟩
  simpa [State.start] using hsteps

/-- Where there is something left to be read the run has not come to its end. -/
theorem lt_of_yields {n : Nat} {t : State ν τ} (hrun : m.run n (.start program base) = .running t)
    (ht : t.pending ≠ []) (h : m.Yields program base k result) : n < k := by
  apply Nat.lt_of_not_le
  intro hkn
  obtain ⟨rest, rfl⟩ := Nat.exists_eq_add_of_le hkn
  cases result with
  | ok final =>
    obtain ⟨u, hu, hread, -⟩ := yields_ok_iff.mp h
    rw [run_add, hu] at hrun
    cases rest with
    | zero =>
      cases hrun
      exact ht hread
    | succ rest =>
      simp only [run, step_eq_finished_iff.mpr ⟨hread, rfl⟩] at hrun
      cases hrun
  | error failure =>
    obtain ⟨u, hu, -⟩ := yields_error_iff.mp h
    rw [run_add, hu] at hrun
    cases hrun

/-- What is reached within the limit is reached with it. -/
theorem Yields.limited (hm : m.limit = none) (h : m.Yields program base k result)
    (hk : k ≤ limit) : (m.limited limit).Yields program base k result := by
  have hrun : (m.limited limit).run k (.start program base) = m.run k (.start program base) := by
    apply run_limited hm
    show 0 + k ≤ limit
    omega
  cases result with
  | ok final =>
    obtain ⟨t, ht, hend⟩ := yields_ok_iff.mp h
    exact yields_ok_iff.mpr ⟨t, hrun.trans ht, hend⟩
  | error failure =>
    obtain ⟨t, ht, hend⟩ := yields_error_iff.mp h
    exact yields_error_iff.mpr ⟨t, hrun.trans ht, hend⟩

/-- What is not reached within the limit is cut short with the stack of the last step allowed. -/
theorem exists_yields_beyond (hm : m.limit = none)
    (h : ∀ k result, m.Yields program base k result → limit < k) :
    ∃ t, m.run limit (.start program base) = .running t ∧
      (m.limited limit).Yields program base (limit + 1)
        (.error (.fault ⟨.stepLimit limit, some t.values⟩)) := by
  have hended : ∀ result, (m.run limit (.start program base)).result? ≠ some result := by
    intro result hresult
    obtain ⟨k, hk, hyields⟩ := exists_yields_of_ended hresult
    have hlt := h k result hyields
    omega
  cases hrun : m.run limit (.start program base) with
  | finished t => exact absurd (by rw [hrun]; rfl) (hended (.ok t.values))
  | failed t failure => exact absurd (by rw [hrun]; rfl) (hended (.error failure))
  | running t =>
    refine ⟨t, rfl, ?_⟩
    have hsteps : t.steps = limit := (steps_of_run hrun).trans (Nat.zero_add limit)
    cases hpending : t.pending with
    | nil =>
      have hlt := h limit (.ok t.values) (yields_ok_iff.mpr ⟨t, hrun, hpending, rfl⟩)
      exact absurd hlt (Nat.lt_irrefl limit)
    | cons e rest =>
      have hlast : (m.limited limit).run limit (.start program base) = .running t := by
        rw [run_limited hm, hrun]
        exact Nat.le_of_eq (Nat.zero_add limit)
      have hbeyond := step_beyond (m := m) hpending (Nat.le_of_eq hsteps.symm)
      refine yields_error_iff.mpr ⟨⟨rest, t.values, t.steps + 1, t.events⟩, ?_, ?_⟩
      · rw [run_add, hlast]
        simp only [run, hbeyond]
      · exact congrArg (· + 1) hsteps

end Start

end Machine

/-- **A limit cuts runs short and does nothing else.** If a machine without a limit comes to a
result within so many steps, then with that limit it comes to the same result in as many; if not,
it fails for the limit with the next step, showing the stack as it was after the last one allowed.
So with a limit it always comes to one result, no later than one step beyond; and with a larger
limit to the same one, unless it was the limit that ended it. -/
theorem limit_cuts_short {m : Machine ν τ} (hm : m.limit = none) (program : List (Expr ν τ))
    (base : Stack ν τ) (limit : Nat) :
    (∀ k result, k ≤ limit → m.Yields program base k result →
      (m.limited limit).Yields program base k result) ∧
    ((∀ k result, m.Yields program base k result → limit < k) →
      ∃ t, m.run limit (.start program base) = .running t ∧
        (m.limited limit).Yields program base (limit + 1)
          (.error (.fault ⟨.stepLimit limit, some t.values⟩))) ∧
    (∃ k result, k ≤ limit + 1 ∧ (m.limited limit).Yields program base k result ∧
      ∀ j other, (m.limited limit).Yields program base j other → j = k ∧ other = result) ∧
    ∀ larger k result, limit ≤ larger → (m.limited limit).Yields program base k result →
      (∀ fault, result = .error (.fault fault) → fault.cause.category ≠ .stepLimitExceeded) →
      (m.limited larger).Yields program base k result := by
  -- Either the run without a limit ends in time, or it is cut short.
  have hcases : (∃ k result, k ≤ limit ∧ m.Yields program base k result) ∨
      ∀ k result, m.Yields program base k result → limit < k := by
    by_cases hended : ∃ k result, k ≤ limit ∧ m.Yields program base k result
    · exact .inl hended
    · refine .inr fun k result hyields => Nat.lt_of_not_le fun hk => ?_
      exact hended ⟨k, result, hk, hyields⟩
  refine ⟨fun k result hk h => h.limited hm hk, fun h => Machine.exists_yields_beyond hm h, ?_, ?_⟩
  · rcases hcases with ⟨k, result, hk, h⟩ | h
    · have hlimited := h.limited hm hk
      exact ⟨k, result, by omega, hlimited, fun j other hother => hother.unique hlimited⟩
    · obtain ⟨t, -, hlimited⟩ := Machine.exists_yields_beyond hm h
      exact ⟨_, _, Nat.le_refl _, hlimited, fun j other hother => hother.unique hlimited⟩
  · intro larger k result hle h hother
    rcases hcases with ⟨j, found, hj, hfound⟩ | hlong
    · obtain ⟨rfl, rfl⟩ := h.unique (hfound.limited hm hj)
      exact hfound.limited hm (Nat.le_trans hj hle)
    · obtain ⟨t, -, hcut⟩ := Machine.exists_yields_beyond hm hlong
      obtain ⟨-, rfl⟩ := h.unique hcut
      exact absurd rfl (hother _ rfl)

/-- A run of two steps, with a limit that it just meets, with one that is larger, and with one that
it does not meet. -/
theorem limit_cuts_short_two :
    (⟨Primitive.host, none, false⟩ : Machine Primitive Unit).limit = none ∧
      (Machine.limited ⟨Primitive.host, none, false⟩ 2).Yields [.word "x", .num 1] [] 2
        (.ok [.word "x", (.num 1 : Expr Primitive Unit)]) ∧
      (Machine.limited ⟨Primitive.host, none, false⟩ 3).Yields [.word "x", .num 1] [] 2
        (.ok [.word "x", (.num 1 : Expr Primitive Unit)]) ∧
      (Machine.limited ⟨Primitive.host, none, false⟩ 1).Yields [.word "x", .num 1] [] 2
        (.error (.fault ⟨.stepLimit 1, some [(.num 1 : Expr Primitive Unit)]⟩)) := by
  let m : Machine Primitive Unit := ⟨Primitive.host, none, false⟩
  let p : List (Expr Primitive Unit) := [.word "x", .num 1]
  have hyields : m.Yields p [] 2 (.ok p) := ⟨3, rfl, rfl⟩
  have hmeets := (limit_cuts_short (m := m) rfl p [] 2).1 2 _ (Nat.le_refl 2) hyields
  refine ⟨rfl, hmeets, ?_, ?_⟩
  · exact (limit_cuts_short (m := m) rfl p [] 2).2.2.2 3 2 _ (by decide) hmeets (by simp)
  · have hlong : ∀ k result, m.Yields p [] k result → 1 < k :=
      fun k result => Machine.lt_of_yields (t := ⟨[.word "x"], [.num 1], 1, []⟩) rfl (by simp)
    obtain ⟨t, hrun, hcut⟩ := (limit_cuts_short (m := m) rfl p [] 1).2.1 hlong
    cases hrun
    exact hcut

end Leftward
