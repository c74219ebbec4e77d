import Leftward.Proofs.Expr.Printing
import Leftward.Proofs.Machine.Runs
import Leftward.Proofs.Primitive.Blame
import Leftward.Proofs.Primitive.Contract

/-!
# Faults of a run

A run of primitives that fails does so in one of four ways (`Failure.Arises`), and each of them is
about **the stack that the step began with**: a primitive blames what is on it, two values of it do
not compare, the limit is exceeded and the whole of it is shown, or a value of it has no text.

So a fault of a run always has a stack, and if no number on it is too long, it also has a message
(`Failure.Arises.exists_message`). The message may tell a number that is not on the stack, but never
one that is more than one beyond.
-/

namespace Leftward

open Primitive (hostWith)

variable {ν τ : Type} {limit : Option Int} {values : Stack ν τ}

/-- The failure is one that a step of primitives can come to on the stack. -/
inductive Failure.Arises (limit : Option Int) (values : Stack ν τ) : Failure ν τ → Prop where
  -- A primitive blames what is on the stack, and shows a suffix of it.
  | blamed {cause : Cause ν τ} {found : Stack ν τ} :
    cause.Concerns values → found <:+ values → Arises limit values (.fault ⟨cause, some found⟩)
  -- Two values do not compare.
  | incomparable (refusal : Refusal) :
    Arises limit values (.fault ⟨.incomparable refusal, some values⟩)
  -- The limit has been exceeded.
  | exceeded {bound : Int} :
    limit = some bound → Arises limit values (.fault ⟨.stepLimit bound, some values⟩)
  -- A value that is to be shown has no text.
  | unprintable {e : Expr ν τ} :
    e ∈ values → e.render = none → Arises limit values (.breakdown .unprintable)

/-! ## Every failure of a run is one of them -/

/-- What a primitive fails with, once the stack has been filled in. -/
theorem Outcome.Blames.arises {failure : Failure ν τ} (h : (Outcome.failed failure).Blames values) :
    (failure.located values).Arises limit values := by
  cases failure with
  | breakdown b =>
    obtain ⟨rfl, e, he, hnone⟩ := h
    exact .unprintable he hnone
  | fault fault =>
    obtain ⟨cause, stack⟩ := fault
    cases stack with
    | none =>
      obtain ⟨refusal, rfl⟩ := h
      exact .incomparable refusal
    | some found => exact .blamed h.1 h.2

theorem arises_of_interpret {stamp : Nat → τ} {tag : τ} {values : Stack Primitive τ}
    {e : Expr Primitive τ} {failure : Failure Primitive τ}
    (h : interpret (hostWith stamp) tag values e = .error failure) :
    failure.Arises limit values := by
  cases e with
  | word name =>
    simp only [interpret] at h
    split at h <;> cases h
  | native op own =>
    cases ha : (hostWith stamp).act op tag values with
    | applied front base =>
      rw [interpret_fire ha] at h
      cases h
    | deferred =>
      rw [interpret_decline ha] at h
      cases h
    | failed found =>
      rw [interpret_fail ha] at h
      cases h
      have hblames : (op.act tag values).Blames values := op.act_blames tag values
      rw [show op.act tag values = .failed found from ha] at hblames
      exact hblames.arises
    | malformed shown => exact absurd ha Primitive.act_ne_malformed
  | _ => cases h

namespace Machine

variable {m : Machine Primitive τ} {stamp : Nat → τ} {s t : State Primitive τ}
  {failure : Failure Primitive τ}

theorem arises_of_step (hm : m.host = hostWith stamp) (h : m.step s = .failed t failure) :
    failure.Arises m.limit s.values := by
  obtain ⟨e, rest, -, -, ⟨bound, hbound, rfl⟩ | hinterpret⟩ := step_eq_failed h
  · exact .exceeded (Option.filter_eq_some_iff.mp hbound).1
  · rw [hm] at hinterpret
    exact arises_of_interpret hinterpret

/-- **A run of primitives fails of what is on the stack**, which the step that fails does not
change. -/
theorem arises_of_run (hm : m.host = hostWith stamp) {n : Nat} (h : m.run n s = .failed t failure) :
    failure.Arises m.limit t.values := by
  obtain ⟨k, u, -, -, hstep⟩ := exists_run_of_failed h
  have harises := arises_of_step hm hstep
  obtain ⟨_, _, -, rfl, -⟩ := step_eq_failed hstep
  exact harises

end Machine

/-! ## What is told of them -/

/-- What is blamed on a value is of one of three categories, and so of none of the four others. -/
theorem Cause.Concerns.category_not_mem {cause : Cause ν τ} (h : cause.Concerns values) :
    cause.category ∉
      [.stepLimitExceeded, .incomparableValues, .parseFailure, .sourceUnreadable] := by
  cases cause with
  | tooFew | unexpected | negativeDepth | splitOutside | emptyUncons | notNullable | notApplicable
  | divisionByZero | croaked => simp [category]
  | _ => exact h.elim

/-- An integer of too many digits is on the stack, or in a value of it, or is one beyond a number on
it. -/
def Stack.Overlong (values : Stack ν τ) : Prop :=
  ∃ i : Int, Decimal.tooLarge ≤ i.natAbs ∧
    ((∃ value ∈ values, Expr.Part (.num i) value) ∨
      ∃ depth : Int, .num depth ∈ values ∧ i.natAbs = depth.natAbs + 1)

namespace Stack

theorem writable_of_not_overlong (h : ¬ Overlong values) :
    ∀ e ∈ values, e.Everywhere Expr.Writable := by
  intro e he x hx
  cases x with
  | num i => exact Nat.lt_of_not_le fun hlong => h ⟨i, hlong, .inl ⟨e, he, hx⟩⟩
  | _ => trivial

theorem succ_lt_of_not_overlong (h : ¬ Overlong values) {depth : Int}
    (hdepth : .num depth ∈ values) : depth.natAbs + 1 < Decimal.tooLarge :=
  Nat.lt_of_not_le fun hlong => h ⟨(depth.natAbs + 1 : Nat), hlong, .inr ⟨depth, hdepth, rfl⟩⟩

theorem not_overlong_of_brief (h : ∀ e ∈ values, e.Brief) : ¬ Overlong values := by
  rintro ⟨i, hlong, ⟨value, hvalue, hpart⟩ | ⟨depth, hdepth, hnext⟩⟩
  · exact Nat.not_le_of_lt ((h value hvalue).writable _ hpart) hlong
  · rw [hnext] at hlong
    exact Nat.not_le_of_lt ((h _ hdepth).self : Decimal.Brief depth).succ_lt hlong

end Stack

/-- What is blamed can be told if the values can be written, and the number of what was too few. -/
theorem Cause.Concerns.exists_message {cause : Cause ν τ} (h : cause.Concerns values)
    (hwritable : ∀ e ∈ values, e.Everywhere Expr.Writable)
    (hneeded : ∀ op needed found, cause = .tooFew op needed found → needed < Decimal.tooLarge) :
    ∃ text, cause.message = some text := by
  have hwrite : ∀ i : Int, .num i ∈ values → ∃ text, Decimal.write i = some text :=
    fun i hi => Decimal.exists_write (hwritable _ hi).self
  have hrender : ∀ e ∈ values, ∃ text, e.render = some text :=
    fun e he => Expr.exists_render (hwritable e he)
  cases cause with
  | tooFew op needed found =>
    obtain ⟨n, hn⟩ := Decimal.exists_write (i := needed) (hneeded op needed found rfl)
    exact ⟨_, by rw [message, hn]; rfl⟩
  | unexpected op wanted found =>
    obtain ⟨text, htext⟩ := hrender found h
    exact ⟨_, by rw [message, htext]; rfl⟩
  | notNullable found | notApplicable found =>
    obtain ⟨text, htext⟩ := hrender found h
    exact ⟨_, by rw [message, htext]; rfl⟩
  | croaked found => exact hrender found h
  | negativeDepth reach depth =>
    obtain ⟨d, hd⟩ := hwrite depth h
    exact ⟨_, by rw [message, hd]; rfl⟩
  | splitOutside length index =>
    obtain ⟨i, hi⟩ := hwrite index h
    exact ⟨_, by rw [message, hi]; rfl⟩
  | divisionByZero op dividend =>
    obtain ⟨x, hx⟩ := hwrite dividend h
    exact ⟨_, by rw [message, hx]; rfl⟩
  | emptyUncons => exact ⟨_, rfl⟩
  | _ => exact h.elim

/-- What is blamed can be told where no number is too long. What was too few was at most one more
than a depth, and then a number of one digit more may be told. -/
theorem Cause.Concerns.exists_message_of_not_overlong {cause : Cause ν τ}
    (h : cause.Concerns values) (hshort : ¬ values.Overlong) :
    ∃ text, cause.message = some text := by
  refine h.exists_message (Stack.writable_of_not_overlong hshort) ?_
  rintro op needed found rfl
  have htwo : Decimal.Brief 2 := by decide
  rcases h with h | ⟨depth, hdepth, h⟩
  · exact Nat.lt_of_le_of_lt h htwo.lt
  · exact Nat.lt_of_le_of_lt h (Stack.succ_lt_of_not_overlong hshort hdepth)

/-- A division by zero is told of with the call, if there is a text for the dividend. -/
theorem Cause.message_divisionByZero {op : Primitive} {dividend : Int}
    (h : dividend.natAbs < Decimal.tooLarge) :
    (divisionByZero op dividend : Cause ν τ).message =
      some ("Division by zero in '" ++ op.name ++ " " ++ toString dividend ++ " 0'") := by
  rw [message, Expr.write_eq_some_iff.mpr ⟨h, rfl⟩]
  rfl

/-- What is reported of a fault on a stack is its category and message, and behind them the
beginning of the stack's text. -/
theorem Fault.report_eq_some {cause : Cause ν τ} {found : Stack ν τ} {reported : String} :
    (⟨cause, some found⟩ : Fault ν τ).report = some reported ↔
      ∃ text shown, cause.message = some text ∧
        Stack.preview Stack.previewLimit found = some shown ∧
        reported = cause.category.name ++ ": " ++ text ++ "\nAt\n   " ++ shown := by
  simp only [report, Option.bind_eq_bind, Option.bind_eq_some_iff, Option.pure_def,
    Option.some.injEq]
  constructor
  · rintro ⟨text, htext, shown, hshown, rfl⟩
    exact ⟨text, shown, htext, hshown, rfl⟩
  · rintro ⟨text, shown, htext, hshown, rfl⟩
    exact ⟨text, htext, shown, hshown, rfl⟩

/-- The report of a fault that shows a stack: category and message, and behind them the first
characters of the stack's text. -/
def Fault.Reports (fault : Fault ν τ) (found : Stack ν τ) (reported : String) : Prop :=
  ∃ text full shown, fault.cause.message = some text ∧ (Expr.quot found).render = some full ∧
    Stack.preview Stack.previewLimit found = some shown ∧
    reported = fault.cause.category.name ++ ": " ++ text ++ "\nAt\n   " ++ shown ∧
    shown.length ≤ 153 ∧ shown.toList.take 150 = full.toList.take 150

theorem Fault.reports_of_report {fault : Fault ν τ} {found : Stack ν τ} {reported : String}
    (hstack : fault.stack = some found) (h : fault.report = some reported) :
    fault.Reports found reported := by
  obtain ⟨cause, stack⟩ := fault
  subst hstack
  obtain ⟨text, shown, htext, hshown, rfl⟩ := report_eq_some.mp h
  obtain ⟨full, hfull, -⟩ := Option.map_eq_some_iff.mp hshown
  obtain ⟨same, hsame, hlength, htake⟩ := Stack.exists_preview hfull 150
  have heq : same = shown := Option.some.inj (hsame.symm.trans hshown)
  rw [heq] at hlength htake
  exact ⟨text, full, shown, htext, hfull, hshown, rfl, hlength, htake⟩

/-- What is told of a fault: category and message, and if it shows a stack, a preview of that. -/
inductive Fault.Tells : Fault ν τ → String → Prop where
  | bare {cause : Cause ν τ} {text : String} : cause.message = some text →
    Tells ⟨cause, none⟩ (cause.category.name ++ ": " ++ text)
  | placed {cause : Cause ν τ} {found : Stack ν τ} {text shown : String} :
    cause.message = some text → Expr.Previews found shown →
    Tells ⟨cause, some found⟩ (cause.category.name ++ ": " ++ text ++ "\nAt\n   " ++ shown)

/-- What is told of a fault that shows a stack. -/
theorem Fault.tells_placed_iff {cause : Cause ν τ} {found : Stack ν τ} {reported : String} :
    (⟨cause, some found⟩ : Fault ν τ).Tells reported ↔
      ∃ text shown, cause.message = some text ∧ Expr.Previews found shown ∧
        reported = cause.category.name ++ ": " ++ text ++ "\nAt\n   " ++ shown := by
  constructor
  · intro h
    cases h with
    | placed htext hshown => exact ⟨_, _, htext, hshown, rfl⟩
  · rintro ⟨text, shown, htext, hshown, rfl⟩
    exact .placed htext hshown

/-- **A fault is reported with what is told of it**, and not reported if that cannot be told. -/
theorem Fault.report_eq_some_iff {fault : Fault ν τ} {reported : String} :
    fault.report = some reported ↔ fault.Tells reported := by
  obtain ⟨cause, _ | found⟩ := fault
  · simp only [report, Option.bind_eq_bind, Option.bind_eq_some_iff, Option.pure_def,
      Option.some.injEq]
    constructor
    · rintro ⟨text, htext, rfl⟩
      exact .bare htext
    · intro h
      cases h with
      | bare htext => exact ⟨_, htext, rfl⟩
  · simp only [report_eq_some, tells_placed_iff, Expr.preview_eq_some_iff]

namespace Failure.Arises

variable {fault : Fault ν τ}

/-- A fault of a run has a stack, which is a suffix of the one that the step began with. -/
theorem exists_stack (h : (Failure.fault fault).Arises limit values) :
    ∃ found, fault.stack = some found ∧ found <:+ values := by
  cases h with
  | blamed _ hfound => exact ⟨_, rfl, hfound⟩
  | incomparable refusal => exact ⟨_, rfl, List.suffix_refl _⟩
  | exceeded hlimit => exact ⟨_, rfl, List.suffix_refl _⟩

/-- What is not to be blamed on a value is told with the whole stack. -/
theorem stack_eq (h : (Failure.fault fault).Arises limit values)
    (hcategory : fault.cause.category ∈ [.stepLimitExceeded, .incomparableValues]) :
    fault.stack = some values := by
  cases h with
  | blamed hcause _ =>
    apply absurd (List.mem_append_left [.parseFailure, .sourceUnreadable] hcategory)
    exact hcause.category_not_mem
  | incomparable refusal => rfl
  | exceeded hlimit => rfl

/-- What is found before a run is never found in one. -/
theorem category_not_mem (h : (Failure.fault fault).Arises limit values) :
    fault.cause.category ∉ [.parseFailure, .sourceUnreadable] := by
  intro hcategory
  cases h with
  | blamed hcause _ =>
    apply absurd (List.mem_append_right [.stepLimitExceeded, .incomparableValues] hcategory)
    exact hcause.category_not_mem
  | incomparable refusal => simp [Cause.category] at hcategory
  | exceeded hlimit => simp [Cause.category] at hcategory

/-- **Where no number is too long, a fault of a run has a message**, if the limit is short too. -/
theorem exists_message (h : (Failure.fault fault).Arises limit values) (hshort : ¬ values.Overlong)
    (hlimit : ∀ bound, limit = some bound → Decimal.Brief bound) :
    ∃ text, fault.cause.message = some text := by
  cases h with
  | blamed hcause _ => exact hcause.exists_message_of_not_overlong hshort
  | incomparable refusal => cases refusal <;> exact ⟨_, rfl⟩
  | @exceeded bound hbound =>
    obtain ⟨text, htext⟩ := Decimal.exists_write (hlimit bound hbound).lt
    exact ⟨_, by rw [Cause.message, htext]; rfl⟩

/-- And so it has a report. -/
theorem exists_report_of_not_overlong (h : (Failure.fault fault).Arises limit values)
    (hshort : ¬ values.Overlong) (hlimit : ∀ bound, limit = some bound → Decimal.Brief bound) :
    ∃ reported, fault.report = some reported := by
  have hwritable := Stack.writable_of_not_overlong hshort
  obtain ⟨text, htext⟩ := h.exists_message hshort hlimit
  obtain ⟨found, hfound, hsuffix⟩ := h.exists_stack
  obtain ⟨shown, hshown⟩ := Expr.exists_previews fun e he => hwritable e (hsuffix.mem he)
  obtain ⟨cause, stack⟩ := fault
  subst hfound
  exact ⟨_, Fault.report_eq_some_iff.mpr (.placed htext hshown)⟩

theorem exists_report (h : (Failure.fault fault).Arises limit values)
    (hbrief : ∀ e ∈ values, e.Brief) (hlimit : ∀ bound, limit = some bound → Decimal.Brief bound) :
    ∃ reported, fault.report = some reported :=
  h.exists_report_of_not_overlong (Stack.not_overlong_of_brief hbrief) hlimit

/-- **A run fails of nothing but a fault**, unless a number is too long. -/
theorem overlong_of_breakdown {b : Breakdown}
    (h : (Failure.breakdown b : Failure ν τ).Arises limit values) :
    b = .unprintable ∧ values.Overlong := by
  cases h with
  | unprintable he hnone =>
    refine ⟨rfl, Classical.byContradiction fun hshort => ?_⟩
    obtain ⟨text, htext⟩ := Expr.exists_render (Stack.writable_of_not_overlong hshort _ he)
    rw [hnone] at htext
    cases htext

theorem not_breakdown {b : Breakdown} (hbrief : ∀ e ∈ values, e.Brief) :
    ¬ (Failure.breakdown b : Failure ν τ).Arises limit values :=
  fun h => Stack.not_overlong_of_brief hbrief h.overlong_of_breakdown.2

end Failure.Arises

end Leftward
