import Leftward.Proofs.Machine.Composition
import Leftward.Proofs.Machine.Reading

/-!
# Going on — one reduction as the rest of another

To say of a word that it leaves other code to be read is to say that **a reduction goes on as
another one** (`GoesOnAs`): after a script, whatever the one comes to, a stack, a failure or no end,
is what the other comes to from there, with the clock set forward by the script, and what is read
from there on is what the other reads. Nothing of the first reduction is left but its steps.

Reductions that go on as each other are put together (`GoesOnAs.trans`). A contract makes one
(`goesOnAs_of_reaches`), and so does any piece of a program that has ended in a stack, for what is
to the left of it (`goesOnAs_of_yields`).
-/

namespace Leftward

open Leftward.Expr

variable {ν τ : Type}

/-- A contract is kept whenever it begins. -/
theorem Reaches.later {host : Host ν τ} {script p q : List (Expr ν τ)} {u v : Stack ν τ}
    (h : Reaches host script p u q v) (made : Nat) : Reaches (host.later made) script p u q v := by
  induction h with
  | refl => exact .refl
  | head hread _ ih =>
    refine .head (fun tag => ?_) ih
    rw [Machine.interpret_later]
    exact hread tag

namespace Machine

variable {m : Machine ν τ}

/-- Reducing a program onto a base goes on, after the script, as reducing the other program onto the
other base. -/
structure GoesOnAs (m : Machine ν τ) (program : List (Expr ν τ)) (base : Stack ν τ)
    (script program' : List (Expr ν τ)) (base' : Stack ν τ) : Prop where
  /-- They come to the same. -/
  yields : ∀ k result, m.Yields program base k result ↔
    ∃ j, k = script.length + j ∧ (m.later script.length).Yields program' base' j result
  /-- Behind the script the same is read. -/
  reading : ∀ n, (m.reading (script.length + n) (.start program base)).map cover =
    script ++ ((m.later script.length).reading n (.start program' base')).map cover

theorem later_later (a b : Nat) : (m.later a).later b = m.later (a + b) := by
  simp only [later, Host.later, Nat.add_assoc]

/-! ## What is read of a run in two parts -/

theorem reading_add {a : Nat} {s t : State ν τ} (h : m.run a s = .running t) (n : Nat) :
    m.reading (a + n) s = m.reading a s ++ m.reading n t := by
  induction a generalizing s with
  | zero =>
    cases h
    rw [Nat.zero_add]
    rfl
  | succ a ih =>
    rw [run] at h
    cases hstep : m.step s with
    | running u =>
      rw [hstep] at h
      obtain ⟨e, rest, _, hpending, _⟩ := step_eq_running hstep
      rw [Nat.succ_add, reading_succ _ hpending hstep, reading_succ _ hpending hstep, ih h,
        List.cons_append]
    | finished u =>
      rw [hstep] at h
      cases h
    | failed u failure =>
      rw [hstep] at h
      cases h

/-- Every step that goes on reads one expression. -/
theorem length_reading {n : Nat} {s t : State ν τ} (h : m.run n s = .running t) :
    (m.reading n s).length = n := by
  induction n generalizing s with
  | zero => rfl
  | succ n ih =>
    rw [run] at h
    cases hstep : m.step s with
    | running u =>
      rw [hstep] at h
      obtain ⟨e, rest, _, hpending, _⟩ := step_eq_running hstep
      rw [reading_succ _ hpending hstep, List.length_cons, ih h]
    | finished u =>
      rw [hstep] at h
      cases h
    | failed u failure =>
      rw [hstep] at h
      cases h

/-- What is carried along behind is not read. -/
theorem reading_before {n : Nat} {s t : State ν τ} (h : m.run n s = .running t)
    (more : List (Expr ν τ)) : m.reading n (s.before more) = m.reading n s := by
  induction n generalizing s with
  | zero => rfl
  | succ n ih =>
    rw [run] at h
    cases hstep : m.step s with
    | running u =>
      rw [hstep] at h
      obtain ⟨e, rest, _, hpending, _⟩ := step_eq_running hstep
      have hbefore : m.step (s.before more) = .running (u.before more) := by
        rw [step_before (by simp [hpending]), hstep]
        rfl
      have hbehind : (s.before more).pending = e :: (rest ++ more) := by
        rw [State.before, hpending, List.cons_append]
      rw [reading_succ _ hbehind hbefore, reading_succ _ hpending hstep, ih h]
    | finished u =>
      rw [hstep] at h
      cases h
    | failed u failure =>
      rw [hstep] at h
      cases h

theorem reading_resumed (hm : m.limit = none) (made : Nat) (told : List Event) (n : Nat)
    (s : State ν τ) : m.reading n (s.resumed made told) = (m.later made).reading n s := by
  induction n generalizing s with
  | zero => rfl
  | succ n ih =>
    have hresumed := step_resumed hm made told s
    cases hstep : (m.later made).step s with
    | running u =>
      obtain ⟨e, rest, _, hpending, _⟩ := step_eq_running hstep
      rw [hstep] at hresumed
      have hread := reading_succ (s := s.resumed made told) n hpending hresumed
      rw [hread, reading_succ _ hpending hstep, ih]
    | finished u =>
      rw [hstep] at hresumed
      simp only [reading, passed, hstep, hresumed, Status.map]
    | failed u failure =>
      rw [hstep] at hresumed
      simp only [reading, passed, hstep, hresumed, Status.map]

/-! ## Going on -/

theorem GoesOnAs.trans {p p' p'' script script' : List (Expr ν τ)} {base base' base'' : Stack ν τ}
    (h : m.GoesOnAs p base script p' base')
    (h' : (m.later script.length).GoesOnAs p' base' script' p'' base'') :
    m.GoesOnAs p base (script ++ script') p'' base'' := by
  have hlater : (m.later script.length).later script'.length =
      m.later (script ++ script').length := by
    rw [later_later, List.length_append]
  refine ⟨fun k result => ?_, fun n => ?_⟩
  · rw [h.yields, ← hlater]
    constructor
    · intro hk
      obtain ⟨j, rfl, hj⟩ := hk
      obtain ⟨i, rfl, hi⟩ := (h'.yields _ _).mp hj
      exact ⟨i, by rw [List.length_append, Nat.add_assoc], hi⟩
    · intro hk
      obtain ⟨i, rfl, hi⟩ := hk
      exact ⟨script'.length + i, by rw [List.length_append, Nat.add_assoc],
        (h'.yields _ _).mpr ⟨i, rfl, hi⟩⟩
  · rw [← hlater, List.length_append, Nat.add_assoc, h.reading, h'.reading, List.append_assoc]

/-- A run that has come as far as the beginning of another, with its own steps and notes behind it,
goes on as that one. -/
theorem goesOnAs_of_run (hm : m.limit = none) {program program' script : List (Expr ν τ)}
    {base base' : Stack ν τ} {told : List Event}
    (hrun : m.run script.length (.start program base) =
      .running ((State.start program' base').resumed script.length told))
    (hscript : (m.reading script.length (.start program base)).map cover = script) :
    m.GoesOnAs program base script program' base' := by
  have hgoes (n : Nat) : m.run (script.length + n) (.start program base) =
      ((m.later script.length).run n (.start program' base')).map
        (State.resumed script.length told) := by
    rw [run_add, hrun]
    exact run_resumed hm _ _ n _
  have hresult (n : Nat) : (m.run (script.length + n) (.start program base)).result? =
      ((m.later script.length).run n (.start program' base')).result? := by
    rw [hgoes, result?_map (f := State.resumed _ _) fun _ => rfl]
  have hsteps (n : Nat) : (m.run (script.length + n) (.start program base)).state.steps =
      script.length + ((m.later script.length).run n (.start program' base')).state.steps := by
    rw [hgoes, state_map]
    rfl
  refine ⟨fun k result => ⟨fun h => ?_, fun h => ?_⟩, fun n => ?_⟩
  · -- The run that has ended is longer than the script, and can be taken to be longer still.
    obtain ⟨fuel, hr, hk⟩ := h
    have hlonger := run_of_ended hr script.length
    rw [Nat.add_comm] at hlonger
    rw [← hlonger, hresult] at hr
    rw [← hlonger, hsteps] at hk
    exact ⟨_, hk.symm, fuel, hr, rfl⟩
  · obtain ⟨j, rfl, fuel, hr, hj⟩ := h
    exact ⟨script.length + fuel, by rw [hresult, hr], by rw [hsteps, hj]⟩
  · rw [reading_add hrun, List.map_append, hscript, reading_resumed hm]

/-- A run that keeps to a contract comes as far as the beginning of what it leaves to be read. -/
theorem exists_run_of_reaches (hm : m.limit = none) {program program' script : List (Expr ν τ)}
    {base base' : Stack ν τ}
    (h : Reaches m.host script program.reverse base program'.reverse base') :
    (∃ told, m.run script.length (.start program base) =
      .running ((State.start program' base').resumed script.length told)) ∧
    (m.reading script.length (.start program base)).map cover = script := by
  obtain ⟨⟨told, hrun⟩, hscript⟩ := run_of_reaches hm h 0 []
  have hresumed : State.resumed script.length told (.start program' base') =
      ⟨program'.reverse, base', 0 + script.length, told⟩ := by
    simp only [State.resumed, State.start, Nat.add_zero, Nat.zero_add, List.nil_append]
  exact ⟨⟨told, hresumed ▸ hrun⟩, hscript⟩

/-- **A contract makes a reduction go on** as that of what it leaves to be read. -/
theorem goesOnAs_of_reaches (hm : m.limit = none) {program program' script : List (Expr ν τ)}
    {base base' : Stack ν τ}
    (h : Reaches m.host script program.reverse base program'.reverse base') :
    m.GoesOnAs program base script program' base' := by
  obtain ⟨⟨told, hrun⟩, hscript⟩ := exists_run_of_reaches hm h
  exact goesOnAs_of_run hm hrun hscript

/-- **A native that is called on literals goes on as its front**, on what it leaves of the stack. -/
theorem goesOnAs_of_fires (hm : m.limit = none) {op : ν} {own : τ} {rest base : Stack ν τ}
    {operands front : List (Expr ν τ)} (hoperands : ∀ e ∈ operands, ∀ below, Inert m.host below e)
    (h : ∀ tag, m.host.act op tag (operands ++ rest) = .applied front base) :
    m.GoesOnAs (native op own :: operands) rest ((operands.map cover).reverse ++ [native op own])
      front base :=
  goesOnAs_of_reaches hm (.fireOn hoperands h)

/-- **What has ended in a stack leaves it to what is on its left.** -/
theorem goesOnAs_of_yields (hm : m.limit = none) {q : List (Expr ν τ)} {base between : Stack ν τ}
    {k : Nat} (h : m.Yields q base k (.ok between)) (p : List (Expr ν τ)) :
    m.GoesOnAs (p ++ q) base ((m.reading k (.start q base)).map cover) p between := by
  obtain ⟨t, hrun, ht, rfl⟩ := yields_ok_iff.mp h
  have hread : m.reading k (.start (p ++ q) base) = m.reading k (.start q base) := by
    rw [start_append, reading_before hrun]
  have hlength : ((m.reading k (.start q base)).map cover).length = k := by
    rw [List.length_map, length_reading hrun]
  have hwhole : m.run k (.start (p ++ q) base) =
      .running ((State.start p t.values).resumed k t.events) :=
    run_append_of_read hm hrun ht p 0
  rw [← hlength] at hwhole
  exact goesOnAs_of_run hm hwhole (by rw [hlength, hread])

/-! ## Reductions that go on as the same one -/

/-- Two reductions that go on as the same one come to the same, the one later than the other by what
its script is longer. -/
theorem GoesOnAs.behind {p p' q script script' : List (Expr ν τ)} {base base' onto : Stack ν τ}
    {made : Nat} (h : m.GoesOnAs p base script q onto)
    (h' : ∀ k result, (m.later made).Yields p' base' k result ↔ ∃ j,
      k = script'.length + j ∧ ((m.later made).later script'.length).Yields q onto j result)
    (hlength : script.length = made + script'.length) (k : Nat) (result : Result ν τ) :
    m.Yields p base k result ↔ ∃ j, k = made + j ∧ (m.later made).Yields p' base' j result := by
  rw [h.yields, hlength]
  simp only [h', later_later]
  constructor
  · rintro ⟨j, rfl, hj⟩
    exact ⟨script'.length + j, Nat.add_assoc _ _ _, j, rfl, hj⟩
  · rintro ⟨_, rfl, j, rfl, hj⟩
    exact ⟨j, (Nat.add_assoc _ _ _).symm, hj⟩

/-- Where natives are functions of the stack, they do so whenever they begin. -/
theorem GoesOnAs.behind_of_pure (hm : m.limit = none) (hp : m.host.Pure)
    {p p' q script script' : List (Expr ν τ)} {base base' onto : Stack ν τ} {made : Nat}
    (h : m.GoesOnAs p base script q onto) (h' : m.GoesOnAs p' base' script' q onto)
    (hlength : script.length = made + script'.length) (k : Nat) (result : Result ν τ) :
    m.Yields p base k result ↔ ∃ j, k = made + j ∧ m.Yields p' base' j result := by
  have hlater : (m.later made).limit = none := hm
  have hpure : (m.later made).host.Pure := hp
  have hbegun : ∀ k result, (m.later made).Yields p' base' k result ↔ ∃ j,
      k = script'.length + j ∧ ((m.later made).later script'.length).Yields q onto j result := by
    intro k result
    rw [yields_later_iff hm hp, h'.yields]
    simp only [yields_later_iff hm hp, yields_later_iff hlater hpure]
  rw [h.behind hbegun hlength]
  simp only [yields_later_iff hm hp]

end Machine
end Leftward
