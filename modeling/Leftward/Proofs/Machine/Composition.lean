import Leftward.Primitive.Action
import Leftward.Proofs.Machine.Runs

/-!
# Composition — a program reduced in parts

Words and natives put code in front of what is pending, on the same list that holds the rest of
the program. **None of it reaches the rest**: whatever stands further to the left is carried along
behind what is pending (`State.before`) and not looked at before everything in front of it is read.

So **a program may be cut anywhere** (`yields_append_iff`): its right part is reduced as if it
stood alone, and its left part onto the stack that the right part leaves. The machine that goes on
with the left part is the same one with its clock set forward (`Machine.later`), since the clock is
what the tags of new definitions are made from. Natives that do not look at their tags make no
difference between the two.
-/

namespace Leftward

variable {ν τ : Type}

/-- The host once so many steps have been made: it hands out the tags that come next. -/
def Host.later (host : Host ν τ) (made : Nat) : Host ν τ :=
  { host with stamp := fun number => host.stamp (made + number) }

/-- The machine once so many steps have been made. It counts its own steps from one again. -/
def Machine.later (m : Machine ν τ) (made : Nat) : Machine ν τ :=
  { m with host := m.host.later made }

/-- The state with more of the program behind what is pending. -/
def State.before (s : State ν τ) (more : List (Expr ν τ)) : State ν τ :=
  { s with pending := s.pending ++ more }

/-- The state of a run that was begun after so many steps, in which so much had been told. -/
def State.resumed (made : Nat) (told : List Event) (s : State ν τ) : State ν τ :=
  { s with steps := made + s.steps, events := s.events ++ told }

/-- The same status of another state. -/
def Status.map (f : State ν τ → State ν τ) : Status ν τ → Status ν τ
  | .running s => .running (f s)
  | .finished s => .finished (f s)
  | .failed s failure => .failed (f s) failure

theorem start_append (p q : List (Expr ν τ)) (base : Stack ν τ) :
    State.start (p ++ q) base = (State.start q base).before p.reverse := by
  simp only [State.start, State.before, List.reverse_append]

theorem result?_map {f : State ν τ → State ν τ} (hf : ∀ s, (f s).values = s.values)
    (status : Status ν τ) : (status.map f).result? = status.result? := by
  cases status with
  | running s => rfl
  | finished s => simp only [Status.map, Status.result?, hf]
  | failed s failure => rfl

theorem state_map (f : State ν τ → State ν τ) (status : Status ν τ) :
    (status.map f).state = f status.state := by
  cases status <;> rfl

namespace Machine

variable {m : Machine ν τ}

/-! ## What stands to the left is carried along -/

/-- A step does not touch what is behind the expression it reads. -/
theorem step_before {s : State ν τ} (hs : s.pending ≠ []) (more : List (Expr ν τ)) :
    m.step (s.before more) = (m.step s).map (·.before more) := by
  obtain ⟨pending, values, steps, events⟩ := s
  cases pending with
  | nil => exact absurd rfl hs
  | cons e rest =>
    simp only [State.before, List.cons_append, step]
    cases m.exceeded (steps + 1) with
    | some limit => rfl
    | none =>
      cases interpret m.host (m.host.stamp (steps + 1)) values e with
      | ok move => simp only [Status.map, List.append_assoc]
      | error failure => rfl

/-- **As long as the part in front has not been read, a run on it is a run on the whole.** -/
theorem run_before {n : Nat} {s : State ν τ} (h : ∀ t, m.run n s ≠ .finished t)
    (more : List (Expr ν τ)) : m.run n (s.before more) = (m.run n s).map (·.before more) := by
  induction n generalizing s with
  | zero => rfl
  | succ n ih =>
    have hs : s.pending ≠ [] := by
      intro hnil
      refine h s ?_
      rw [run, step_eq_finished_iff.mpr ⟨hnil, rfl⟩]
    rw [run, step_before hs]
    rw [run] at h ⊢
    cases hstep : m.step s with
    | running t =>
      rw [hstep] at h
      exact ih h
    | finished t => exact absurd (by rw [hstep]) (h t)
    | failed t failure => rfl

/-! ## Going on with the clock set forward -/

theorem note_append (event : Option Event) (events told : List Event) :
    m.note event (events ++ told) = m.note event events ++ told := by
  cases event with
  | none => rfl
  | some e =>
    simp only [note]
    split <;> rfl

theorem interpret_later (host : Host ν τ) (made : Nat) (tag : τ) (values : Stack ν τ)
    (e : Expr ν τ) : interpret (host.later made) tag values e = interpret host tag values e := by
  cases e <;> rfl

theorem step_resumed (hm : m.limit = none) (made : Nat) (told : List Event) (s : State ν τ) :
    m.step (s.resumed made told) = ((m.later made).step s).map (State.resumed made told) := by
  obtain ⟨pending, values, steps, events⟩ := s
  cases pending with
  | nil => rfl
  | cons e rest =>
    have hlater : (m.later made).limit = none := hm
    have hstamp : (m.later made).host.stamp (steps + 1) = m.host.stamp (made + steps + 1) := rfl
    rw [State.resumed, step_of_unlimited hm, step_of_unlimited hlater, hstamp, later,
      interpret_later]
    cases interpret m.host (m.host.stamp (made + steps + 1)) values e with
    | ok move =>
      simp only [Status.map, State.resumed, note_append, Nat.add_assoc]
      rfl
    | error failure => rfl

/-- A run that goes on from a state is a run from the beginning with the clock set forward. -/
theorem run_resumed (hm : m.limit = none) (made : Nat) (told : List Event) (n : Nat)
    (s : State ν τ) :
    m.run n (s.resumed made told) = ((m.later made).run n s).map (State.resumed made told) := by
  induction n generalizing s with
  | zero => rfl
  | succ n ih =>
    rw [run, step_resumed hm, run]
    cases (m.later made).step s with
    | running t => exact ih t
    | finished t => rfl
    | failed t failure => rfl

/-! ## Cutting a program in two -/

/-- Once the right part has been read, the whole run goes on as a run on the left part. -/
theorem run_append_of_read (hm : m.limit = none) {k : Nat} {q : List (Expr ν τ)}
    {base : Stack ν τ} {t : State ν τ} (h : m.run k (.start q base) = .running t)
    (ht : t.pending = []) (p : List (Expr ν τ)) (n : Nat) :
    m.run (k + n) (.start (p ++ q) base) =
      ((m.later k).run n (.start p t.values)).map (State.resumed k t.events) := by
  have hsteps : t.steps = k := (steps_of_run h).trans (Nat.zero_add k)
  have hread : t.before p.reverse = (State.start p t.values).resumed k t.events := by
    simp only [State.before, State.start, State.resumed, ht, hsteps, List.nil_append, Nat.add_zero]
  have hwhole : m.run k (.start (p ++ q) base) = .running (t.before p.reverse) := by
    rw [start_append, run_before (by simp [h]), h]
    rfl
  rw [run_add, hwhole, hread, ← run_resumed hm]

/-- First the right part, then the left part on what the right part left. -/
theorem Yields.append (hm : m.limit = none) {p q : List (Expr ν τ)} {base between : Stack ν τ}
    {a c : Nat} {result : Result ν τ} (hq : m.Yields q base a (.ok between))
    (hp : (m.later a).Yields p between c result) : m.Yields (p ++ q) base (a + c) result := by
  obtain ⟨t, hrun, ht, rfl⟩ := yields_ok_iff.mp hq
  obtain ⟨fuel, hr, hc⟩ := hp
  refine ⟨a + fuel, ?_, ?_⟩
  · rw [run_append_of_read hm hrun ht, result?_map (f := State.resumed _ _) fun _ => rfl, hr]
  · rw [run_append_of_read hm hrun ht, state_map, State.resumed, hc]

/-- If the right part fails, the whole fails, and in the same way. -/
theorem Yields.append_error {q : List (Expr ν τ)} {base : Stack ν τ} {k : Nat}
    {failure : Failure ν τ} (hq : m.Yields q base k (.error failure)) (p : List (Expr ν τ)) :
    m.Yields (p ++ q) base k (.error failure) := by
  obtain ⟨fuel, hr, hk⟩ := hq
  have hend : ∀ t, m.run fuel (.start q base) ≠ .finished t := by
    intro t heq
    rw [heq] at hr
    cases hr
  refine ⟨fuel, ?_, ?_⟩
  · rw [start_append, run_before hend, result?_map, hr]
    exact fun _ => rfl
  · rw [start_append, run_before hend, state_map, State.before, hk]

/-- **A program that ends has read its right part**, which failed or left a stack for the left
part. -/
theorem Yields.split (hm : m.limit = none) {p q : List (Expr ν τ)} {base : Stack ν τ} {k : Nat}
    {result : Result ν τ} (h : m.Yields (p ++ q) base k result) :
    (∃ failure, result = .error failure ∧ m.Yields q base k (.error failure)) ∨
      ∃ a c between, k = a + c ∧ m.Yields q base a (.ok between) ∧
        (m.later a).Yields p between c result := by
  obtain ⟨fuel, hr, hk⟩ := h
  cases hrun : m.run fuel (.start q base) with
  | running t =>
    rw [start_append, run_before (by simp [hrun]), hrun] at hr
    cases hr
  | failed t failure =>
    rw [start_append, run_before (by simp [hrun]), hrun] at hr hk
    cases hr
    exact .inl ⟨failure, rfl, fuel, by rw [hrun]; rfl, by rw [hrun]; exact hk⟩
  | finished t =>
    obtain ⟨a, ha, hread, ht⟩ := exists_run_of_finished hrun
    have hfuel : fuel = a + (fuel - a) := by omega
    rw [hfuel, run_append_of_read hm hread ht] at hr hk
    rw [result?_map (f := State.resumed _ _) fun _ => rfl] at hr
    rw [state_map] at hk
    exact .inr ⟨a, _, t.values, hk.symm, yields_ok_iff.mpr ⟨t, hread, ht, rfl⟩, _, hr, rfl⟩

/-! ## Natives that do not look at their tags -/

theorem runs_later_iff {host : Host ν τ} {made k : Nat} {pending : List (Expr ν τ)}
    {values : Stack ν τ} {result : Result ν τ} :
    Runs (host.later made) k pending values result ↔ Runs host k pending values result := by
  constructor
  · intro h
    induction h with
    | done => exact .done
    | step hi _ ih => exact .step (interpret_later host made _ _ _ ▸ hi) ih
    | fail hi => exact .fail (interpret_later host made _ _ _ ▸ hi)
  · intro h
    induction h with
    | done => exact .done
    | step hi _ ih => exact .step ((interpret_later host made _ _ _).trans hi) ih
    | fail hi => exact .fail ((interpret_later host made _ _ _).trans hi)

/-- Where natives are functions of the stack, it is all one when a reduction begins. -/
theorem yields_later_iff (hm : m.limit = none) (hp : m.host.Pure) {made k : Nat}
    {program : List (Expr ν τ)} {base : Stack ν τ} {result : Result ν τ} :
    (m.later made).Yields program base k result ↔ m.Yields program base k result := by
  have hlater : (m.later made).host.Pure := hp
  rw [yields_iff_runs hm hp, yields_iff_runs (m := m.later made) hm hlater]
  exact runs_later_iff

/-! ## Programs in parts -/

/-- The parts of a program are reduced one by one, the last one first, each onto the stack that is
there by then. -/
def YieldsInParts (m : Machine ν τ) :
    List (List (Expr ν τ)) → Stack ν τ → Nat → Result ν τ → Prop
  | [], base, k, result => k = 0 ∧ result = .ok base
  | part :: others, base, k, result =>
    (∃ failure, result = .error failure ∧ m.YieldsInParts others base k (.error failure)) ∨
      ∃ a c between, k = a + c ∧ m.YieldsInParts others base a (.ok between) ∧
        (m.later a).Yields part between c result

theorem yields_nil_iff {base : Stack ν τ} {k : Nat} {result : Result ν τ} :
    m.Yields [] base k result ↔ k = 0 ∧ result = .ok base := by
  constructor
  · intro h
    obtain ⟨fuel, hr, hk⟩ := h
    cases fuel with
    | zero => cases hr
    | succ fuel =>
      cases hr
      exact ⟨hk.symm, rfl⟩
  · intro h
    obtain ⟨rfl, rfl⟩ := h
    exact ⟨1, rfl, rfl⟩

theorem yields_flatten_iff (hm : m.limit = none) (parts : List (List (Expr ν τ)))
    {base : Stack ν τ} {k : Nat} {result : Result ν τ} :
    m.Yields parts.flatten base k result ↔ m.YieldsInParts parts base k result := by
  induction parts generalizing k result with
  | nil => exact yields_nil_iff
  | cons part others ih =>
    rw [List.flatten_cons, YieldsInParts]
    constructor
    · intro h
      rcases h.split hm with ⟨failure, hr, hq⟩ | ⟨a, c, between, hk, hq, hp⟩
      · exact .inl ⟨failure, hr, ih.mp hq⟩
      · exact .inr ⟨a, c, between, hk, ih.mp hq, hp⟩
    · rintro (⟨failure, rfl, hq⟩ | ⟨a, c, between, rfl, hq, hp⟩)
      · exact (ih.mpr hq).append_error part
      · exact (ih.mpr hq).append hm hp

end Machine

/-- **Reduction is compositional.** A program ends in a stack exactly if its right part ends in
some stack from which the left part ends in that one, and the steps add up; it ends in a failure
exactly if its right part does, or leaves a stack from which the left part does. The left part is
reduced by the machine as it is by then, which is the machine as it was if natives are functions of
the stack. While the right part is being read, ending or not, the left part is only carried along.
So a program in any number of parts is reduced part by part. -/
theorem yields_append_iff {m : Machine ν τ} (hm : m.limit = none) (p q : List (Expr ν τ))
    (base : Stack ν τ) :
    (∀ k final, m.Yields (p ++ q) base k (.ok final) ↔
      ∃ a c between, k = a + c ∧ m.Yields q base a (.ok between) ∧
        (m.later a).Yields p between c (.ok final)) ∧
    (∀ k failure, m.Yields (p ++ q) base k (.error failure) ↔
      m.Yields q base k (.error failure) ∨
        ∃ a c between, k = a + c ∧ m.Yields q base a (.ok between) ∧
          (m.later a).Yields p between c (.error failure)) ∧
    (m.host.Pure → ∀ a program onto k result,
      (m.later a).Yields program onto k result ↔ m.Yields program onto k result) ∧
    (∀ n s, m.run n (.start q base) = .running s →
      m.run n (.start (p ++ q) base) = .running (s.before p.reverse)) ∧
    ∀ parts k result,
      m.Yields parts.flatten base k result ↔ m.YieldsInParts parts base k result := by
  refine ⟨fun k final => ⟨fun h => ?_, ?_⟩, fun k failure => ⟨fun h => ?_, ?_⟩, ?_, ?_, ?_⟩
  · rcases h.split hm with ⟨failure, hr, _⟩ | hparts
    · cases hr
    · exact hparts
  · rintro ⟨a, c, between, rfl, hq, hp⟩
    exact hq.append hm hp
  · rcases h.split hm with ⟨found, hr, hq⟩ | hparts
    · cases hr
      exact .inl hq
    · exact .inr hparts
  · rintro (hq | ⟨a, c, between, rfl, hq, hp⟩)
    · exact hq.append_error p
    · exact hq.append hm hp
  · intro hpure a program onto k result
    exact Machine.yields_later_iff hm hpure
  · intro n s hrun
    rw [start_append, Machine.run_before (by simp [hrun]), hrun]
    rfl
  · intro parts k result
    exact Machine.yields_flatten_iff hm parts

/-- A word in the left part, defined in the right part. -/
theorem yields_append_iff_word :
    (⟨Primitive.host, none, false⟩ : Machine Primitive Unit).limit = none ∧
      (⟨Primitive.host, none, false⟩ : Machine Primitive Unit).Yields
        ([.native .add (), .word "five"] ++ [.num 2, .defn "five" [.num 5] ()]) [] 6
        (.ok [.num 7, .defn "five" [.num 5] ()]) :=
  ⟨rfl, ((yields_append_iff rfl _ _ _).1 _ _).mpr
    ⟨2, 4, [.num 2, .defn "five" [.num 5] ()], rfl, ⟨3, rfl, rfl⟩, ⟨5, rfl, rfl⟩⟩⟩

end Leftward
