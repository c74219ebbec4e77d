import Leftward.Proofs.Primitive.Contract

/-!
# The recursive reading of reduction

What reduction means is said most plainly by a recursion: reduce what is to the right, then step
on the expression in front. A word that has a definition and a native that fires **start over**:
their replacement is put in front of the whole stack that was reached and all of it is reduced
again. `Reduces` is that recursion as a derivation, the failures included.

The machine is flat where this is nested, and it never goes back to a stack that it has reached.
**The two come to the same all the same** (`machine_iff_reduces`): a stack that a reduction has
reached is normal, and a normal stack reduces to itself, so that starting over is reading what was
put in front and nothing more.
-/

namespace Leftward

variable {ν τ : Type}

/-- What natives promise: they are functions of the stack, a native that fires leaves a suffix of
it, and whatever a native answers is an outcome. -/
structure Host.Contract (host : Host ν τ) : Prop where
  pure : host.Pure
  suffix : ∀ {op tag values front base}, host.act op tag values = .applied front base →
    base <:+ values
  answers : ∀ {op tag values shown}, host.act op tag values ≠ .malformed shown

theorem Host.Contract.lawful {host : Host ν τ} (h : host.Contract) : host.Lawful where
  declines ha t := (h.pure _ _ t _).symm.trans ha
  suffix := h.suffix

theorem Primitive.contract_host : Primitive.host.Contract where
  pure := Primitive.pure_host
  suffix := Primitive.act_suffix
  answers := Primitive.act_ne_malformed

/-! ## The recursion -/

mutual

/-- What a program reduces to. -/
inductive Reduces (host : Host ν τ) : List (Expr ν τ) → Result ν τ → Prop where
  -- The empty program is the empty stack.
  | nil : Reduces host [] (.ok [])
  -- What is to the right is reduced first, and the expression in front steps on the result.
  | cons {e : Expr ν τ} {rest : List (Expr ν τ)} {values : Stack ν τ} {result : Result ν τ} :
      Reduces host rest (.ok values) → StepsTo host e values result →
      Reduces host (e :: rest) result
  -- If what is to the right fails, that is that.
  | fail {e : Expr ν τ} {rest : List (Expr ν τ)} {failure : Failure ν τ} :
      Reduces host rest (.error failure) → Reduces host (e :: rest) (.error failure)

/-- What an expression in front of a reduced stack comes to. -/
inductive StepsTo (host : Host ν τ) : Expr ν τ → Stack ν τ → Result ν τ → Prop where
  -- A word with a definition: its nearest body and the stack are reduced again.
  | resolve {name : String} {values : Stack ν τ} {body : List (Expr ν τ)} {result : Result ν τ} :
      Stack.lookup name values = some body → Reduces host (body ++ values) result →
      StepsTo host (.word name) values result
  -- A word without a definition is data.
  | unresolved {name : String} {values : Stack ν τ} :
      Stack.lookup name values = none →
      StepsTo host (.word name) values (.ok (.word name :: values))
  -- A native that fires: its front and its base are reduced again.
  | fire {op : ν} {own tag : τ} {values base : Stack ν τ} {front : List (Expr ν τ)}
      {result : Result ν τ} :
      host.act op tag values = .applied front base → Reduces host (front ++ base) result →
      StepsTo host (.native op own) values result
  -- A native that declines is data.
  | decline {op : ν} {own tag : τ} {values : Stack ν τ} :
      host.act op tag values = .deferred →
      StepsTo host (.native op own) values (.ok (.native op own :: values))
  -- A native that fails, at the stack it was given if it names no other.
  | fail {op : ν} {own tag : τ} {values : Stack ν τ} {failure : Failure ν τ} :
      host.act op tag values = .failed failure →
      StepsTo host (.native op own) values (.error (failure.located values))
  -- A comment vanishes.
  | erase {text : String} {values : Stack ν τ} : StepsTo host (.comment text) values (.ok values)
  -- Anything else is data.
  | push {e : Expr ν τ} {values : Stack ν τ} :
      e.kind ≠ .word → e.kind ≠ .function → e.kind ≠ .comment →
      StepsTo host e values (.ok (e :: values))

end

variable {host : Host ν τ}

theorem stepsTo_of_inert {values : Stack ν τ} {e : Expr ν τ} (h : Inert host values e) (tag : τ) :
    StepsTo host e values (.ok (e :: values)) := by
  cases e with
  | word name => exact .unresolved (inert_word_iff.mp h)
  | native op own => exact .decline (h tag)
  | comment text => exact h.elim
  | _ => exact .push (by simp [Expr.kind]) (by simp [Expr.kind]) (by simp [Expr.kind])

namespace Reduces

/-- **A normal stack reduces to itself.** -/
theorem of_normal {values : Stack ν τ} (hn : Normal host values) (tag : τ) :
    Reduces host values (.ok values) := by
  induction values with
  | nil => exact .nil
  | cons e rest ih =>
    obtain ⟨he, hrest⟩ := normal_cons.mp hn
    exact .cons (ih hrest) (stepsTo_of_inert he tag)

/-- What stands to the right may be replaced by what reduces to all the same. -/
theorem mono_right {q s t : List (Expr ν τ)} {result : Result ν τ}
    (hst : ∀ r, Reduces host s r → Reduces host t r) (h : Reduces host (q ++ s) result) :
    Reduces host (q ++ t) result := by
  induction q generalizing result with
  | nil => exact hst _ h
  | cons e q ih =>
    cases h with
    | cons hrest hstep => exact .cons (ih hrest) hstep
    | fail hrest => exact .fail (ih hrest)

/-- A failure to the right is not undone. -/
theorem fail_append {s : List (Expr ν τ)} {failure : Failure ν τ}
    (h : Reduces host s (.error failure)) (q : List (Expr ν τ)) :
    Reduces host (q ++ s) (.error failure) := by
  induction q with
  | nil => exact h
  | cons e q ih => exact .fail ih

end Reduces

/-! ## From the machine to the recursion -/

/-- **One step of the machine is a step of the recursion**: what the move leaves, reduced as a
whole, is what the expression in front of the stack reduces to. -/
theorem reduces_of_move (hl : host.Lawful) {tag : τ} {e : Expr ν τ} {values : Stack ν τ}
    {move : Move ν τ} {result : Result ν τ} (hn : Normal host values)
    (hi : interpret host tag values e = .ok move)
    (h : Reduces host (move.front ++ move.values) result) :
    Reduces host (e :: values) result := by
  have hself : Reduces host values (.ok values) := .of_normal hn tag
  rcases interpret_cases hl hi with
    ⟨name, rfl, hb, hv⟩ | ⟨op, own, rfl, ha⟩ | ⟨text, rfl, hf, hv⟩ | ⟨_, rfl⟩
  · exact .cons hself (.resolve hb (hv ▸ h))
  · exact .cons hself (.fire ha h)
  · rw [hf, hv, List.nil_append] at h
    cases result with
    | ok final => exact .cons h .erase
    | error failure => exact .fail h
  · exact h

/-- A step that fails is a failure of the recursion. -/
theorem reduces_of_error (hc : host.Contract) {tag : τ} {e : Expr ν τ} {values : Stack ν τ}
    {failure : Failure ν τ} (hn : Normal host values)
    (hi : interpret host tag values e = .error failure) :
    Reduces host (e :: values) (.error failure) := by
  have hself : Reduces host values (.ok values) := .of_normal hn tag
  cases e with
  | word name =>
    cases hb : Stack.lookup name values with
    | some body =>
      rw [interpret_resolve hb] at hi
      cases hi
    | none =>
      rw [interpret_of_inert (inert_word_iff.mpr hb)] at hi
      cases hi
  | native op own =>
    cases ha : host.act op tag values with
    | applied front base =>
      rw [interpret_fire ha] at hi
      cases hi
    | deferred =>
      rw [interpret_decline ha] at hi
      cases hi
    | failed found =>
      rw [interpret_fail ha] at hi
      cases hi
      exact .cons hself (.fail ha)
    | malformed shown => exact absurd ha hc.answers
  | _ => cases hi

/-- What the machine comes to from a normal stack, the program and the stack reduce to. -/
theorem reduces_of_runs (hc : host.Contract) {k : Nat} {pending : List (Expr ν τ)}
    {values : Stack ν τ} {result : Result ν τ} (hn : Normal host values) (tag : τ)
    (h : Runs host k pending values result) :
    Reduces host (pending.reverse ++ values) result := by
  induction h with
  | done => exact .of_normal hn tag
  | @step k e rest values tag move result hi _ ih =>
    have hmove := ih (interpret_normal hc.lawful hn hi)
    rw [List.reverse_append, List.reverse_reverse, List.append_assoc] at hmove
    rw [List.reverse_cons, List.append_assoc, List.singleton_append]
    exact hmove.mono_right fun _ => reduces_of_move hc.lawful hn hi
  | fail hi =>
    rw [List.reverse_cons, List.append_assoc, List.singleton_append]
    exact (reduces_of_error hc hn hi).fail_append _

/-! ## From the recursion to the machine -/

/-- A normal stack at the right end of a program may as well be there from the start. -/
theorem Runs.onto (hp : host.Pure) {k : Nat} {q : List (Expr ν τ)} {values : Stack ν τ}
    {result : Result ν τ} (hn : Normal host values) (tag : τ)
    (h : Runs host k (q ++ values).reverse [] result) :
    ∃ j, Runs host j q.reverse values result := by
  have hnil : Normal host (values ++ []) := by rwa [List.append_nil]
  have hself : Runs host values.length values.reverse [] (.ok values) := by
    simpa using Runs.of_normal hnil tag
  rw [List.reverse_append] at h
  rcases h.split with ⟨failure, _, hfail⟩ | ⟨a, b, between, _, hfirst, hrest⟩
  · exact absurd (hself.unique hp hfail).2 (by simp)
  · obtain ⟨_, heq⟩ := hself.unique hp hfirst
    cases heq
    exact ⟨b, hrest⟩

mutual

/-- What a program reduces to, the machine comes to. -/
theorem runs_of_reduces (hc : host.Contract) (tag : τ) {p : List (Expr ν τ)}
    {result : Result ν τ} :
    Reduces host p result → ∃ k, Runs host k p.reverse [] result
  | .nil => ⟨0, .done⟩
  | .cons (e := e) hrest hstep => by
    obtain ⟨a, ha⟩ := runs_of_reduces hc tag hrest
    obtain ⟨b, hb⟩ := runs_of_stepsTo hc tag (ha.normal hc.lawful normal_nil) hstep
    rw [List.reverse_cons]
    exact ⟨a + b, ha.append hb⟩
  | .fail (e := e) hrest => by
    obtain ⟨a, ha⟩ := runs_of_reduces hc tag hrest
    rw [List.reverse_cons]
    exact ⟨a, ha.append_error [e]⟩

/-- What an expression in front of a normal stack comes to, the machine comes to. -/
theorem runs_of_stepsTo (hc : host.Contract) (tag : τ) {e : Expr ν τ} {values : Stack ν τ}
    {result : Result ν τ} (hn : Normal host values) :
    StepsTo host e values result → ∃ k, Runs host k [e] values result
  | .resolve hb hrun => by
    obtain ⟨k, hk⟩ := runs_of_reduces hc tag hrun
    obtain ⟨j, hj⟩ := hk.onto hc.pure hn tag
    exact ⟨j + 1, .step (interpret_resolve hb tag) (by simpa using hj)⟩
  | .unresolved hb => ⟨1, .step (interpret_of_inert (inert_word_iff.mpr hb) tag) .done⟩
  | .fire ha hrun => by
    obtain ⟨k, hk⟩ := runs_of_reduces hc tag hrun
    obtain ⟨j, hj⟩ := hk.onto hc.pure (hn.of_suffix (hc.suffix ha)) tag
    exact ⟨j + 1, .step (interpret_fire ha _) (by simpa using hj)⟩
  | .decline ha => ⟨1, .step (interpret_decline ha _) .done⟩
  | .fail ha => ⟨1, .fail (interpret_fail ha _)⟩
  | .erase => ⟨1, .step (interpret_erase tag) .done⟩
  | .push (e := e) hw hf hcom => by
    have hi : Inert host values e := by
      cases e <;> simp_all [Expr.kind, Inert]
    exact ⟨1, .step (interpret_of_inert hi tag) .done⟩

end

/-! ## The two agree -/

/-- **The machine comes to what the recursion says**, whatever that is. -/
theorem exists_yields_iff_reduces (hc : host.Contract) (watched : Bool) {p : List (Expr ν τ)}
    {result : Result ν τ} :
    (∃ k, (⟨host, none, watched⟩ : Machine ν τ).Yields p [] k result) ↔ Reduces host p result := by
  have hruns : ∀ {k : Nat}, (⟨host, none, watched⟩ : Machine ν τ).Yields p [] k result ↔
      Runs host k p.reverse [] result := Machine.yields_iff_runs rfl hc.pure
  constructor
  · intro h
    obtain ⟨k, hk⟩ := h
    simpa using reduces_of_runs hc normal_nil (host.stamp 0) (hruns.mp hk)
  · intro h
    obtain ⟨k, hk⟩ := runs_of_reduces hc (host.stamp 0) h
    exact ⟨k, hruns.mpr hk⟩

/-- **The flat machine implements the nested recursion.** Without a limit on its steps it ends in a
stack exactly if the recursion derives that stack, and it ends in a fault of some category and
message exactly if the recursion derives one. -/
theorem machine_iff_reduces (hc : host.Contract) (watched : Bool) (p : List (Expr ν τ)) :
    (∀ final : Stack ν τ,
      (∃ k, (⟨host, none, watched⟩ : Machine ν τ).Yields p [] k (.ok final)) ↔
        Reduces host p (.ok final)) ∧
    ∀ (category : Category) (message : String),
      (∃ k fault, (⟨host, none, watched⟩ : Machine ν τ).Yields p [] k (.error (.fault fault)) ∧
          fault.cause.category = category ∧ fault.cause.message = some message) ↔
        ∃ fault, Reduces host p (.error (.fault fault)) ∧
          fault.cause.category = category ∧ fault.cause.message = some message := by
  refine ⟨fun final => exists_yields_iff_reduces hc watched, fun category message => ?_⟩
  constructor
  · intro h
    obtain ⟨k, fault, hy, hm⟩ := h
    exact ⟨fault, (exists_yields_iff_reduces hc watched).mp ⟨k, hy⟩, hm⟩
  · intro h
    obtain ⟨fault, hr, hm⟩ := h
    obtain ⟨k, hy⟩ := (exists_yields_iff_reduces hc watched).mpr hr
    exact ⟨k, fault, hy, hm⟩

/-- Doubling four, by a word that is defined further right. -/
theorem machine_iff_reduces_double :
    Primitive.host.Contract ∧
      Reduces Primitive.host
        [.word "double", .num 4, .defn "double" [.native .add (), .native .dup ()] ()]
        (.ok [.num 8, .defn "double" [.native .add (), .native .dup ()] ()]) :=
  ⟨Primitive.contract_host,
    ((machine_iff_reduces Primitive.contract_host false _).1 _).mp ⟨8, 9, rfl, rfl⟩⟩

end Leftward
