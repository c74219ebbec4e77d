import Leftward.Proofs.Primitive.Contract
import Leftward.Proofs.Primitive.Shuffling

/-!
# Arithmetic — what the five operations compute

Integers are unbounded, so `+ - *` are those of the integers. `/` and `%` go together: **the
quotient and the remainder are the two numbers that make up the dividend again, with a remainder
between zero and the divisor** (`Computes`). That is one pair for every divisor but zero
(`division_iff`), and it fixes all four combinations of signs: the remainder has the sign of the
divisor.

An operation on a stack has three outcomes, and which it is can be seen at the top
(`arithmetic_exact`). Without two numbers there it waits, whatever the second value is, a zero
included; with a zero divisor it fails; and else it puts the number that it computes in the place of
its two operands. Beneath them nothing changes.
-/

namespace Leftward

open Leftward.Expr

variable {ν τ : Type}

namespace Primitive

/-! ## Division -/

/-- The remainder lies between zero and the divisor, which it does not reach. -/
def Remains (divisor remainder : Int) : Prop :=
  (0 ≤ remainder ∧ remainder < divisor) ∨ (divisor < remainder ∧ remainder ≤ 0)

/-- The number is what the operation makes of two others. -/
inductive Computes : Primitive → Int → Int → Int → Prop where
  | add (x y : Int) : Computes add x y (x + y)
  | sub (x y : Int) : Computes sub x y (x - y)
  | mul (x y : Int) : Computes mul x y (x * y)
  | div {x y quotient remainder : Int} :
      x = quotient * y + remainder → Remains y remainder → Computes div x y quotient
  | mod {x y quotient remainder : Int} :
      x = quotient * y + remainder → Remains y remainder → Computes mod x y remainder

/-- **There is one way to divide by a number that is not zero**, and it is to the floor. -/
theorem division_iff {x y quotient remainder : Int} (hy : y ≠ 0) :
    x = quotient * y + remainder ∧ Remains y remainder ↔
      x.fdiv y = quotient ∧ x.fmod y = remainder := by
  have hwhole : x = quotient * y + remainder ↔ remainder + y * quotient = x := by
    rw [Int.mul_comm, Int.add_comm, eq_comm]
  rw [hwhole, Remains]
  rcases Int.lt_or_gt_of_ne hy with hneg | hpos
  · rw [Int.fdiv_fmod_unique' hneg]
    constructor <;> rintro ⟨h, hr⟩ <;> refine ⟨h, ?_⟩ <;> omega
  · rw [Int.fdiv_fmod_unique hpos]
    constructor <;> rintro ⟨h, hr⟩ <;> refine ⟨h, ?_⟩ <;> omega

theorem computes_add_iff {x y z : Int} : Computes add x y z ↔ z = x + y := by
  constructor
  · rintro ⟨⟩
    rfl
  · rintro rfl
    exact .add x y

theorem computes_sub_iff {x y z : Int} : Computes sub x y z ↔ z = x - y := by
  constructor
  · rintro ⟨⟩
    rfl
  · rintro rfl
    exact .sub x y

theorem computes_mul_iff {x y z : Int} : Computes mul x y z ↔ z = x * y := by
  constructor
  · rintro ⟨⟩
    rfl
  · rintro rfl
    exact .mul x y

theorem computes_div_iff {x y z : Int} (hy : y ≠ 0) : Computes div x y z ↔ z = x.fdiv y := by
  constructor
  · intro h
    cases h with
    | div hwhole hremains => exact ((division_iff hy).mp ⟨hwhole, hremains⟩).1.symm
  · rintro rfl
    obtain ⟨hwhole, hremains⟩ := (division_iff (x := x) hy).mpr ⟨rfl, rfl⟩
    exact .div hwhole hremains

theorem computes_mod_iff {x y z : Int} (hy : y ≠ 0) : Computes mod x y z ↔ z = x.fmod y := by
  constructor
  · intro h
    cases h with
    | mod hwhole hremains => exact ((division_iff hy).mp ⟨hwhole, hremains⟩).2.symm
  · rintro rfl
    obtain ⟨hwhole, hremains⟩ := (division_iff (x := x) hy).mpr ⟨rfl, rfl⟩
    exact .mod hwhole hremains

/-! ## The operations on a stack -/

/-- The operation is one that divides. -/
def Divides (op : Primitive) : Prop := op = div ∨ op = mod

theorem not_twoNumbers_iff {values : Stack ν τ} :
    ¬ Action.TwoNumbers values ↔
      values.length < 2 ∨ ∃ e ∈ values.take 2, e.kind ≠ .number := by
  have hnumber (e : Expr ν τ) : e.kind = .number ↔ ∃ n, e = num n := by
    cases e <;> simp [Expr.kind]
  rcases values with _ | ⟨a, _ | ⟨b, below⟩⟩
  · simp [Action.TwoNumbers]
  · simp [Action.TwoNumbers]
  · have hmany : ¬ (a :: b :: below).length < 2 := by simp
    have htwo : Action.TwoNumbers (a :: b :: below) ↔ a.kind = .number ∧ b.kind = .number := by
      rw [hnumber, hnumber]
      constructor
      · rintro ⟨x, y, _, h⟩
        cases h
        exact ⟨⟨x, rfl⟩, y, rfl⟩
      · rintro ⟨⟨x, rfl⟩, y, rfl⟩
        exact ⟨x, y, below, rfl⟩
    rw [htwo]
    simp only [hmany, false_or, List.take_succ_cons, List.take_zero, List.mem_cons,
      List.not_mem_nil, or_false, exists_eq_or_imp, exists_eq_left]
    exact Decidable.not_and_iff_or_not

/-- **Two numbers are computed with, unless they are to be divided by zero.** -/
theorem act_numbers {op : Primitive} (ho : op ∈ arithmetic) (x y : Int) (below : Stack ν τ) :
    (∃ z, (∀ z', Computes op x y z' ↔ z' = z) ∧ ¬ (op.Divides ∧ y = 0) ∧
        ∀ tag : τ, op.act tag (num x :: num y :: below) = .applied [num z] below) ∨
      (op.Divides ∧ y = 0 ∧ ∀ tag : τ, op.act tag (num x :: num y :: below) =
        Action.fail (.divisionByZero op x) (num x :: num y :: below)) := by
  simp only [arithmetic, List.mem_cons, List.not_mem_nil, or_false] at ho
  rcases ho with rfl | rfl | rfl | rfl | rfl
  · exact .inl ⟨x + y, fun _ => computes_add_iff, by simp [Divides], fun _ => rfl⟩
  · exact .inl ⟨x - y, fun _ => computes_sub_iff, by simp [Divides], fun _ => rfl⟩
  · exact .inl ⟨x * y, fun _ => computes_mul_iff, by simp [Divides], fun _ => rfl⟩
  · by_cases hy : y = 0
    · exact .inr ⟨.inl rfl, hy, fun _ => by simp [act, Action.division, hy]⟩
    · exact .inl ⟨x.fdiv y, fun _ => computes_div_iff hy, fun h => hy h.2,
        fun _ => by simp [act, Action.division, hy]⟩
  · by_cases hy : y = 0
    · exact .inr ⟨.inr rfl, hy, fun _ => by simp [act, Action.division, hy]⟩
    · exact .inl ⟨x.fmod y, fun _ => computes_mod_iff hy, fun h => hy h.2,
        fun _ => by simp [act, Action.division, hy]⟩

/-- A division by zero can be told if the number to be divided can be. -/
theorem exists_message_divisionByZero {op : Primitive} {x : Int} :
    (∃ text, (Cause.divisionByZero op x : Cause ν τ).message = some text) ↔
      x.natAbs < Decimal.tooLarge := by
  rw [Cause.message]
  constructor
  · rintro ⟨text, htext⟩
    obtain ⟨written, hwritten, -⟩ := Option.bind_eq_some_iff.mp htext
    exact Decimal.lt_of_write hwritten
  · intro hshort
    obtain ⟨written, hwritten⟩ := Decimal.exists_write hshort
    exact ⟨_, by rw [hwritten]; rfl⟩

/-- The operation fails of arithmetic if and only if it divides by zero, as long as the number that
it would divide can be told. -/
theorem act_arithmeticFailure_iff {op : Primitive} (ho : op ∈ arithmetic) (tag : τ)
    (values : Stack ν τ) :
    (∃ fault text, op.act tag values = .failed (.fault fault) ∧
        fault.cause.category = .arithmeticFailure ∧ fault.cause.message = some text) ↔
      ∃ x below, values = num x :: num 0 :: below ∧ op.Divides ∧ x.natAbs < Decimal.tooLarge := by
  constructor
  · rintro ⟨fault, text, hact, -, htext⟩
    have htwo : Action.TwoNumbers values := by
      refine Classical.byContradiction fun hnot => ?_
      rw [act_eq_deferred_iff.mpr ⟨ho, hnot⟩] at hact
      cases hact
    obtain ⟨x, y, below, rfl⟩ := htwo
    rcases act_numbers ho x y below with ⟨z, -, -, happlied⟩ | ⟨hdivides, rfl, hfailed⟩
    · rw [happlied tag] at hact
      cases hact
    · rw [hfailed tag] at hact
      cases hact
      exact ⟨x, below, rfl, hdivides, exists_message_divisionByZero.mp ⟨text, htext⟩⟩
  · rintro ⟨x, below, rfl, hdivides, hshort⟩
    rcases act_numbers ho x 0 below with ⟨-, -, hnot, -⟩ | ⟨-, -, hfailed⟩
    · exact absurd ⟨hdivides, rfl⟩ hnot
    · obtain ⟨text, htext⟩ := exists_message_divisionByZero.mpr hshort
      exact ⟨_, text, hfailed tag, rfl, htext⟩

end Primitive

namespace Machine

variable {m : Machine ν τ} {embed : Primitive → ν} {values : Stack ν τ}

/-! ## The operations in a program -/

/-- A primitive that fails ends the run and leaves the stack. -/
theorem yields_of_fails (hm : m.limit = none) (hs : m.host.Supplies embed) {p : Primitive} (own : τ)
    {cause : Cause ν τ} {found : Stack ν τ}
    (hact : ∀ tag, p.act tag values = Action.fail cause found) :
    m.Yields [native (embed p) own] values 1 (.error (.fault ⟨cause, some found⟩)) ∧
      ∀ n, (m.run n (.start [native (embed p) own] values)).state.values = values := by
  have hstep : m.step (.start [native (embed p) own] values) =
      .failed ⟨[], values, 1, []⟩ (.fault ⟨cause, some found⟩) := by
    have hread := interpret_fail ((hs p (m.host.stamp 1) values).trans (hact _)) own
    rw [State.start, List.reverse_singleton, step_of_unlimited hm, hread]
    rfl
  refine ⟨yields_error_iff.mpr ⟨_, by rw [run, hstep], rfl⟩, fun n => ?_⟩
  cases n with
  | zero => rfl
  | succ n =>
    rw [run, hstep]
    rfl

/-- **Arithmetic is exact, and each of its outcomes excludes the others.** On a stack without two
numbers on top the operation declines, and only there: it is then pushed once, onto the stack as it
is. It fails of arithmetic if and only if it is to divide by zero a number that can be told, and
then the stack is as it was. On two numbers it otherwise fires, and in their place there is then the
one number that the operation computes, of whatever size, with the same beneath it. A quotient and a
remainder by a number that is not zero make up the dividend, and the remainder lies between zero and
the divisor. -/
theorem arithmetic_exact (hm : m.limit = none) (hs : m.host.Supplies embed) {op : Primitive}
    (ho : op ∈ [Primitive.add, .sub, .mul, .div, .mod]) (tag own : τ) (values : Stack ν τ) :
    let call : Expr ν τ := native (embed op) own
    (op.act tag values = .deferred ↔ values.length < 2 ∨ ∃ e ∈ values.take 2, e.kind ≠ .number) ∧
    ((∃ fault text, op.act tag values = .failed (.fault fault) ∧
        fault.cause.category = .arithmeticFailure ∧ fault.cause.message = some text) ↔
      ∃ x below, values = num x :: num 0 :: below ∧ op.Divides ∧ x.natAbs < Decimal.tooLarge) ∧
    (∀ x y below, values = num x :: num y :: below → ¬ (op.Divides ∧ y = 0) →
      ∃ z, (∀ z', op.Computes x y z' ↔ z' = z) ∧ op.act tag values = .applied [num z] below ∧
        m.YieldsOver below [call] values 2 (num z :: below)) ∧
    (∀ x y : Int, y ≠ 0 → ∃ q r, Primitive.div.Computes x y q ∧ Primitive.mod.Computes x y r ∧
      x = q * y + r ∧ (0 < y → 0 ≤ r ∧ r < y) ∧ (y < 0 → y < r ∧ r ≤ 0)) ∧
    (op.act tag values = .deferred → m.YieldsOver values [call] values 1 (call :: values)) ∧
    ∀ x below, values = num x :: num 0 :: below → op.Divides →
      m.Yields [call] values 1 (.error (.fault ⟨.divisionByZero op x, some values⟩)) ∧
        ∀ n, (m.run n (.start [call] values)).state.values = values := by
  intro call
  refine ⟨?_, Primitive.act_arithmeticFailure_iff ho tag values, ?_, ?_, ?_, ?_⟩
  · rw [Primitive.act_eq_deferred_iff, ← Primitive.not_twoNumbers_iff]
    exact and_iff_right ho
  · rintro x y below rfl hnot
    rcases Primitive.act_numbers ho x y below with
      ⟨z, hcomputes, -, happlied⟩ | ⟨hdivides, hzero, -⟩
    · have hnumber : m.Turns below [num z] below 1 (num z :: below) :=
        turns_of_inert hm trivial (List.suffix_refl below)
      have hturns : m.Turns below [call] (num x :: num y :: below) 2 (num z :: below) :=
        turns_of_fires hm hs own ⟨[_, _], rfl⟩ happlied hnumber
      exact ⟨z, hcomputes, happlied tag, hturns.yieldsOver hm rfl (List.suffix_cons _ below)⟩
    · exact absurd ⟨hdivides, hzero⟩ hnot
  · intro x y hy
    obtain ⟨hwhole, hremains⟩ := (Primitive.division_iff (x := x) hy).mpr ⟨rfl, rfl⟩
    refine ⟨_, _, .div hwhole hremains, .mod hwhole hremains, hwhole, fun hpos => ?_,
      fun hneg => ?_⟩
    · rcases hremains with h | ⟨hlow, hhigh⟩
      · exact h
      · omega
    · rcases hremains with ⟨hlow, hhigh⟩ | h
      · omega
      · exact h
  · intro hdeferred
    have hinert : Inert m.host values call := by
      intro other
      rw [hs]
      exact Primitive.act_eq_deferred_iff.mpr (Primitive.act_eq_deferred_iff.mp hdeferred)
    exact (turns_of_inert hm hinert (List.suffix_refl values)).yieldsOver hm rfl
      (List.suffix_cons call values)
  · rintro x below rfl hdivides
    rcases Primitive.act_numbers ho x 0 below with ⟨-, -, hnot, -⟩ | ⟨-, -, hfailed⟩
    · exact absurd ⟨hdivides, rfl⟩ hnot
    · exact yields_of_fails hm hs own hfailed

/-- Seven divided by minus two leaves minus one, and what lies beneath stays. -/
theorem arithmetic_exact_negative :
    let m : Machine Primitive Unit := ⟨Primitive.host, none, false⟩
    m.limit = none ∧ m.host.Supplies (id : Primitive → Primitive) ∧
      Primitive.mod ∈ [Primitive.add, .sub, .mul, .div, .mod] ∧
      m.YieldsOver [word "x"] [native .mod ()] [num 7, num (-2), word "x"] 2
        [num (-1), word "x"] := by
  intro m
  have hs : m.host.Supplies (id : Primitive → Primitive) := fun _ _ _ => rfl
  have ho : Primitive.mod ∈ [Primitive.add, .sub, .mul, .div, .mod] := by decide
  obtain ⟨-, -, hfires, -⟩ :=
    arithmetic_exact (m := m) rfl hs ho () () [num 7, num (-2), word "x"]
  obtain ⟨z, hcomputes, -, hyields⟩ := hfires 7 (-2) [word "x"] rfl fun h => absurd h.2 (by decide)
  have hremainder : Primitive.mod.Computes 7 (-2) (-1) :=
    .mod (show (7 : Int) = (-4) * (-2) + (-1) by decide) (.inr ⟨by decide, by decide⟩)
  obtain rfl : -1 = z := (hcomputes (-1)).mp hremainder
  exact ⟨rfl, hs, ho, hyields⟩

end Machine
end Leftward
