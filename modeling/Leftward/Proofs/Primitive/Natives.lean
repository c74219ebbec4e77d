import Leftward.Proofs.Expr.Natives
import Leftward.Proofs.Primitive.Materials

/-!
# Primitives make no natives

A primitive moves natives, doubles them, wraps them up and unwraps them, but **whatever native it
puts into its front was on the stack, at some depth** (`act_holds`). So a native that a program and
its stack do not hold anywhere is not held by anything that a run comes to.
-/

namespace Leftward

variable {ν τ : Type}

open Leftward.Expr (nativesAll natives)

/-- If the outcome is an application, its front holds no native that the stack does not hold. -/
def Outcome.Holds (values : Stack ν τ) : Outcome ν τ → Prop
  | .applied front _ => nativesAll front ⊆ nativesAll values
  | _ => True

theorem Stack.Offers.natives_subset {values : Stack ν τ} {e : Expr ν τ} (h : values.Offers e) :
    natives e ⊆ nativesAll values := by
  intro op hop
  rcases h with he | ⟨items, hq, he⟩
  · exact Expr.mem_nativesAll.mpr ⟨e, he, hop⟩
  · exact Expr.mem_nativesAll.mpr ⟨.quot items, hq, Expr.mem_nativesAll.mpr ⟨e, he, hop⟩⟩

/-- What is made of the stack holds no native that the stack does not hold. -/
theorem Expr.MadeOf.natives_subset {values : Stack ν τ} {e : Expr ν τ} (h : e.MadeOf values) :
    natives e ⊆ nativesAll values := by
  cases h with
  | offered h => exact h.natives_subset
  | truth | number => exact List.nil_subset _
  | string text =>
    rw [Expr.ofText, natives, Expr.nativesAll_map_chr]
    exact List.nil_subset _
  | quotation hitems =>
    intro op hop
    obtain ⟨e, he, hop⟩ := Expr.mem_nativesAll.mp hop
    exact (hitems e he).natives_subset hop
  | @definition name body tag _ hbody =>
    intro op hop
    exact Expr.mem_nativesAll.mpr ⟨.quot body, hbody, hop⟩

namespace Primitive

/-- **No primitive makes a native.** -/
theorem act_holds (op : Primitive) (tag : τ) (values : Stack ν τ) :
    (op.act tag values).Holds values := by
  have hdraws := op.act_draws tag values
  cases hact : op.act tag values with
  | applied front base =>
    rw [hact] at hdraws
    intro native hnative
    obtain ⟨e, he, hnative⟩ := Expr.mem_nativesAll.mp hnative
    exact (hdraws e he).natives_subset hnative
  | _ => trivial

end Primitive

/-! ## Runs make none either -/

open Primitive (hostWith)

/-- The native operations that the machine has before it: in what it is still to read and on its
stack. -/
def State.natives (s : State ν τ) : List ν := nativesAll s.pending ++ nativesAll s.values

section Runs

variable {stamp : Nat → τ} {m : Machine Primitive τ}

theorem natives_of_interpret {tag : τ} {values : Stack Primitive τ} {e : Expr Primitive τ}
    {move : Move Primitive τ} (h : interpret (hostWith stamp) tag values e = .ok move) :
    nativesAll (move.front ++ move.values) ⊆ e.natives ++ nativesAll values := by
  rw [Expr.nativesAll_append]
  rcases interpret_cases (Primitive.lawful_hostWith stamp) h with
    ⟨name, rfl, hbody, hv⟩ | ⟨op, own, rfl, ha⟩ | ⟨text, rfl, hfront, hv⟩ | ⟨-, rfl⟩
  · rw [hv]
    exact List.append_subset.mpr ⟨natives_of_lookup hbody, List.Subset.refl _⟩
  · have hholds := op.act_holds tag values
    rw [show op.act tag values = .applied move.front move.values from ha] at hholds
    have hbase : nativesAll move.values ⊆ nativesAll values :=
      Expr.nativesAll_subset (Primitive.act_suffix ha).subset
    exact List.Subset.trans (List.append_subset.mpr ⟨hholds, hbase⟩) (List.subset_append_right _ _)
  · rw [hfront, hv]
    exact List.Subset.refl _
  · exact List.Subset.refl _

/-- **A step has no native before it that was not there before.** -/
theorem natives_of_step (hm : m.host = hostWith stamp) {s t : State Primitive τ}
    (h : m.step s = .running t) : t.natives ⊆ s.natives := by
  obtain ⟨e, rest, move, hpending, -, hmove, rfl⟩ := Machine.step_eq_running h
  rw [hm] at hmove
  have hread := natives_of_interpret hmove
  rw [Expr.nativesAll_append] at hread
  have hfront : nativesAll move.front.reverse ⊆ nativesAll move.front :=
    Expr.nativesAll_subset fun _ => List.mem_reverse.mp
  intro op hop
  simp only [State.natives, hpending, nativesAll, Expr.nativesAll_append, List.mem_append] at hop ⊢
  obtain (hop | hop) | hop := hop
  · exact (List.mem_append.mp (hread (List.mem_append_left _ (hfront hop)))).imp_left .inl
  · exact .inl (.inr hop)
  · exact (List.mem_append.mp (hread (List.mem_append_right _ hop))).imp_left .inl

end Runs
end Leftward
