import Leftward.Proofs.Expr.Written
import Leftward.Proofs.Primitive.Frame

/-!
# Blame — what a failing primitive tells, and of what

A primitive that fails tells of the values that it found and of nothing else, and it shows **a
suffix of its stack** (`act_blames`). Only `=` shows no stack of its own, and the machine then fills
in the whole one. That a value is to be shown that has no text is the one thing that is not a fault
of the language; among short numbers it does not happen (`Failure.Arises.not_breakdown`).
-/

namespace Leftward

variable {ν τ : Type}

/-- The cause is one that a primitive finds on the stack: the value that it tells of is there, and
so is the depth that too few values were found for. -/
def Cause.Concerns (values : Stack ν τ) : Cause ν τ → Prop
  | .tooFew _ needed _ =>
    needed ≤ 2 ∨ ∃ depth : Int, .num depth ∈ values ∧ needed ≤ depth.natAbs + 1
  | .unexpected _ _ found | .notNullable found | .notApplicable found | .croaked found =>
    found ∈ values
  | .negativeDepth _ value | .splitOutside _ value | .divisionByZero _ value =>
    .num value ∈ values
  | .emptyUncons => True
  | _ => False

/-- If the outcome is a failure, it tells of the values: a fault of what is among them, shown with a
suffix of them, or two of them that do not compare, or one that has no text. -/
def Outcome.Blames (values : Stack ν τ) : Outcome ν τ → Prop
  | .failed (.fault ⟨cause, some found⟩) => cause.Concerns values ∧ found <:+ values
  | .failed (.fault ⟨cause, none⟩) => ∃ refusal, cause = .incomparable refusal
  | .failed (.breakdown b) => b = .unprintable ∧ ∃ e ∈ values, e.render = none
  | _ => True

section Outcomes

variable {values : Stack ν τ}

@[simp] theorem Outcome.blames_applied {front : List (Expr ν τ)} {base : Stack ν τ} :
    (Outcome.applied front base).Blames values := trivial

@[simp] theorem Outcome.blames_deferred : (Outcome.deferred : Outcome ν τ).Blames values := trivial

@[simp] theorem Action.blames_fail {found : Stack ν τ} {cause : Cause ν τ} :
    (Action.fail cause found).Blames values ↔ cause.Concerns values ∧ found <:+ values := Iff.rfl

@[simp] theorem Action.blames_short {found : Stack ν τ} {op : Primitive} {needed : Nat} :
    (Action.short op needed found).Blames values ↔
      (needed ≤ 2 ∨ ∃ depth : Int, .num depth ∈ values ∧ needed ≤ depth.natAbs + 1) ∧
        found <:+ values := Iff.rfl

end Outcomes

namespace Action

/-- What was to be found at a depth on the stack was not there. -/
theorem blames_depth {op : Primitive} (depth : Int) {needed : Nat} {values found : Stack ν τ}
    (hdepth : .num depth ∈ values) (hneeded : needed ≤ depth.natAbs + 1)
    (hfound : found <:+ values) : (short op needed found).Blames values :=
  ⟨.inr ⟨depth, hdepth, hneeded⟩, hfound⟩

theorem blames_bury (values : Stack ν τ) : (bury values).Blames values := by
  fun_cases bury values with
  | case3 depth e rest _ _ => exact blames_depth depth List.mem_cons_self (by omega) ⟨[_, _], rfl⟩
  | _ => simp [Cause.Concerns]

theorem blames_exhume (values : Stack ν τ) : (exhume values).Blames values := by
  fun_cases exhume values with
  | case3 depth rest _ _ =>
    exact blames_depth depth List.mem_cons_self (by omega) (List.suffix_cons _ _)
  | _ => simp [Cause.Concerns]

theorem blames_dig (values : Stack ν τ) : (dig values).Blames values := by
  fun_cases dig values with
  | case3 depth items rest _ _ =>
    exact blames_depth depth List.mem_cons_self (by omega) ⟨[_, _], rfl⟩
  | _ => simp [Cause.Concerns]

theorem blames_splitAt (values : Stack ν τ) : (splitAt values).Blames values := by
  fun_cases splitAt values <;> simp [Cause.Concerns]

theorem blames_equal (values : Stack ν τ) : (equal values).Blames values := by
  fun_cases equal values with
  | case2 e f rest refusal _ => exact ⟨refusal, rfl⟩
  | _ => simp

theorem blames_display (values : Stack ν τ) : (display values).Blames values := by
  fun_cases display values with
  | case2 e rest hnone => exact ⟨rfl, e, List.mem_cons_self, hnone⟩
  | _ => simp

theorem blames_arith (f : Int → Int → Int) (values : Stack ν τ) :
    (arith f values).Blames values := by
  fun_cases arith f values <;> simp

theorem blames_division (op : Primitive) (f : Int → Int → Int) (values : Stack ν τ) :
    (division op f values).Blames values := by
  fun_cases division op f values <;> simp [Cause.Concerns]

end Action

namespace Primitive

/-- **A primitive that fails tells of the stack that it failed on.** -/
theorem act_blames (op : Primitive) (tag : τ) (values : Stack ν τ) :
    (op.act tag values).Blames values := by
  cases op with
  | bury => exact Action.blames_bury values
  | exhume => exact Action.blames_exhume values
  | dig => exact Action.blames_dig values
  | splitAt => exact Action.blames_splitAt values
  | equal => exact Action.blames_equal values
  | display => exact Action.blames_display values
  | add | sub | mul => exact Action.blames_arith _ values
  | div | mod => exact Action.blames_division _ _ values
  -- The others blame a value that they match on, or that there are too few of them.
  | drop | dup | not | or | and | quote | cons | uncons | null | append | kind | dip | apply | croak
  | define =>
    simp only [act, Action.drop, Action.dup, Action.not, Action.or, Action.and, Action.quote,
      Action.cons, Action.uncons, Action.null, Action.append, Action.kind, Action.dip, Action.apply,
      Action.croak, Action.define]
    split <;> simp [Cause.Concerns]

end Primitive

end Leftward
