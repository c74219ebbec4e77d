import Leftward.Proofs.Expr.Renaming
import Leftward.Proofs.Primitive.Likeness

/-!
# Primitives on renamed stacks

Primitives use names through equality and in no other way: `=` compares them, `def` hands one on,
and the rest pass them over. Renamed values are thus like the values before (`likeness_rename`), and
**a primitive does on a renamed stack what it did before, renamed** (`act_rename`), its failures
included, which tell of the renamed values. The one exception is `show`, which spells a name out.
-/

namespace Leftward

variable {ν τ : Type}

/-! ## Failures and outcomes, renamed -/

/-- The cause with the expression that it tells of renamed. -/
def Cause.rename (ρ : String → String) : Cause ν τ → Cause ν τ
  | unexpected op wanted found => unexpected op wanted (found.rename ρ)
  | notNullable found => notNullable (found.rename ρ)
  | notApplicable found => notApplicable (found.rename ρ)
  | croaked message => croaked (message.rename ρ)
  | cause => cause

/-- The failure with everything that it tells of renamed. -/
def Failure.rename (ρ : String → String) : Failure ν τ → Failure ν τ
  | fault ⟨cause, stack⟩ => fault ⟨cause.rename ρ, stack.map (List.map (Expr.rename ρ))⟩
  | breakdown b => breakdown b

/-- The outcome with everything in it renamed. -/
def Outcome.rename (ρ : String → String) : Outcome ν τ → Outcome ν τ
  | applied front base => applied (front.map (Expr.rename ρ)) (base.map (Expr.rename ρ))
  | deferred => deferred
  | failed failure => failed (failure.rename ρ)
  | malformed shown => malformed shown

/-- What a failure is announced as: the category of a fault, or nothing if the fault cannot be put
into words or if it is none. -/
def Failure.announced : Failure ν τ → Option Category
  | fault f => f.cause.message.map fun _ => f.cause.category
  | breakdown _ => none

variable {ρ : String → String}

@[simp] theorem Cause.category_rename (cause : Cause ν τ) :
    (cause.rename ρ).category = cause.category := by
  cases cause <;> rfl

/-- A cause can be put into words with other names exactly if it could before. -/
theorem Cause.isSome_message_rename (cause : Cause ν τ) :
    (cause.rename ρ).message.isSome = cause.message.isSome := by
  have hsentence (f : String → String) (text : Option String) :
      (text.bind fun t => some (f t)).isSome = text.isSome := by
    cases text <;> rfl
  cases cause with
  | unexpected op wanted found =>
    simp only [rename, message, Option.bind_eq_bind, Option.pure_def]
    rw [hsentence, hsentence, Expr.isSome_render_rename]
  | notNullable found | notApplicable found =>
    simp only [rename, message, Option.bind_eq_bind, Option.pure_def]
    rw [hsentence, hsentence, Expr.isSome_render_rename]
  | croaked found => exact Expr.isSome_render_rename found
  | _ => rfl

/-- **A failure is announced as it was.** -/
theorem Failure.announced_rename (failure : Failure ν τ) :
    (failure.rename ρ).announced = failure.announced := by
  cases failure with
  | breakdown b => rfl
  | fault f =>
    have hmessage := Cause.isSome_message_rename (ρ := ρ) f.cause
    simp only [announced, rename, Cause.category_rename]
    cases hrenamed : (f.cause.rename ρ).message <;> cases hbefore : f.cause.message <;>
      simp [hrenamed, hbefore] at hmessage ⊢

theorem Failure.rename_located (values : Stack ν τ) (failure : Failure ν τ) :
    (failure.located values).rename ρ =
      (failure.rename ρ).located (values.map (Expr.rename ρ)) := by
  rcases failure with ⟨cause, _ | found⟩ | b <;> rfl

/-! ## What a renaming hides from a primitive -/

theorem forall₂_rename_iff {items items' : List (Expr ν τ)} :
    List.Forall₂ (fun e e' => e' = Expr.rename ρ e) items items' ↔
      items' = items.map (Expr.rename ρ) := by
  constructor
  · intro h
    induction h with
    | nil => rfl
    | cons he _ ih => rw [he, ih, List.map_cons]
  · rintro rfl
    exact List.forall₂_map_right_iff.mpr (List.forall₂_same.mpr fun _ _ => rfl)

open Leftward.Expr in
/-- **Renamed values are like the values before**, if no two names have become one. -/
theorem likeness_rename (hρ : Function.Injective ρ) (tag : τ) :
    Likeness (fun e e' : Expr ν τ => e' = e.rename ρ) tag tag where
  shape := by
    rintro e _ rfl
    cases e with
    | quot items =>
      rw [rename_quot]
      exact .quot (forall₂_rename_iff.mpr rfl)
    | _ => constructor
  equals := by
    rintro x _ y _ rfl rfl
    exact equals_rename hρ x y
  num _ := rfl
  bool _ := rfl
  chr _ := rfl
  quot h := by rw [rename_quot, forall₂_rename_iff.mp h]
  defn := by
    intro name name' body body' hname hbody
    cases hname
    rw [rename_defn, forall₂_rename_iff.mp hbody]

theorem Cause.rename_of_related {cause cause' : Cause ν τ}
    (h : cause.Related (fun e e' => e' = e.rename ρ) cause') : cause' = cause.rename ρ := by
  cases h with
  | unexpected op wanted hfound => rw [hfound, rename]
  | notNullable hfound | notApplicable hfound => rw [hfound, rename]
  | croaked hmessage => rw [hmessage, rename]
  | _ => rfl

theorem Outcome.rename_of_related {outcome outcome' : Outcome ν τ}
    (h : outcome.Related (fun e e' => e' = e.rename ρ) outcome') : outcome' = outcome.rename ρ := by
  cases h with
  | applied hfront hbase =>
    rw [rename, forall₂_rename_iff.mp hfront, forall₂_rename_iff.mp hbase]
  | deferred => rfl
  | failed hfailure =>
    cases hfailure with
    | breakdown b => rfl
    | fault hcause hstack =>
      rw [rename, Failure.rename, Cause.rename_of_related hcause]
      cases hstack with
      | none => rfl
      | some hfound => rw [forall₂_rename_iff.mp hfound, Option.map_some]

namespace Primitive

/-- **A primitive does on a renamed stack what it did before, renamed**, unless it is the one that
spells names out. -/
theorem act_rename (hρ : Function.Injective ρ) {op : Primitive} (hop : op ≠ .display) (tag : τ)
    (values : Stack ν τ) :
    op.act tag (values.map (Expr.rename ρ)) = (op.act tag values).rename ρ :=
  Outcome.rename_of_related
    (act_related (likeness_rename hρ tag) (absurd · hop) (forall₂_rename_iff.mpr rfl))

end Primitive
end Leftward
