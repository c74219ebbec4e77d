import Leftward.Proofs.Expr.Comparison
import Leftward.Proofs.Expr.Natives
import Leftward.Proofs.Expr.Written

/-!
# Renaming — other names for the same words

A renaming gives every word and every definition another name, wherever it lies: in quotations, in
pairs, in the bodies of definitions. What a native is called is not a name in this sense and stays.

**A renaming that keeps names apart is not noticed**: a word finds the same definition
(`lookup_rename`), two expressions compare as they did (`equals_rename`), and what has a text has
one still, though another (`isSome_render_rename`).
-/

namespace Leftward
namespace Expr

variable {ν τ : Type}

mutual

/-- The expression with its words and definitions renamed, at every depth. -/
def rename (ρ : String → String) : Expr ν τ → Expr ν τ
  | word name => word (ρ name)
  | quot items => quot (renameAll ρ items)
  | pair a b => pair (rename ρ a) (rename ρ b)
  | defn name body tag => defn (ρ name) (renameAll ρ body) tag
  | e => e

/-- The expressions with their words and definitions renamed. -/
def renameAll (ρ : String → String) : List (Expr ν τ) → List (Expr ν τ)
  | [] => []
  | e :: rest => rename ρ e :: renameAll ρ rest

end

variable {ρ : String → String}

theorem renameAll_eq_map (items : List (Expr ν τ)) : renameAll ρ items = items.map (rename ρ) := by
  induction items with
  | nil => rfl
  | cons e rest ih => rw [renameAll, ih, List.map_cons]

/-! ## What renaming does to each kind of expression -/

@[simp] theorem rename_word (name : String) :
    (word name : Expr ν τ).rename ρ = word (ρ name) := rfl

@[simp] theorem rename_num (value : Int) : (num value : Expr ν τ).rename ρ = num value := rfl

@[simp] theorem rename_bool (value : Bool) : (bool value : Expr ν τ).rename ρ = bool value := rfl

@[simp] theorem rename_chr (c : Char) : (chr c : Expr ν τ).rename ρ = chr c := rfl

@[simp] theorem rename_quot (items : List (Expr ν τ)) :
    (quot items).rename ρ = quot (items.map (rename ρ)) :=
  congrArg quot (renameAll_eq_map items)

@[simp] theorem rename_pair (a b : Expr ν τ) :
    (pair a b).rename ρ = pair (a.rename ρ) (b.rename ρ) := rfl

@[simp] theorem rename_defn (name : String) (body : List (Expr ν τ)) (tag : τ) :
    (defn name body tag).rename ρ = defn (ρ name) (body.map (rename ρ)) tag :=
  congrArg (defn (ρ name) · tag) (renameAll_eq_map body)

@[simp] theorem rename_native (op : ν) (tag : τ) :
    (native op tag : Expr ν τ).rename ρ = native op tag := rfl

@[simp] theorem rename_comment (text : String) :
    (comment text : Expr ν τ).rename ρ = comment text := rfl

@[simp] theorem isLeaf_rename (e : Expr ν τ) : (e.rename ρ).isLeaf = e.isLeaf := by
  cases e <;> rfl

/-! ## Comparing -/

section Comparing

variable {judge : Judge τ}

theorem compareLeaves_rename (hρ : Function.Injective ρ) (x y : Expr ν τ) :
    compareLeaves judge (x.rename ρ) (y.rename ρ) = compareLeaves judge x y := by
  cases x with
  | word a =>
    cases y with
    | word b => simp [compareLeaves, hρ.eq_iff]
    | _ => rfl
  | _ => cases y <;> rfl

theorem compareAll_rename {xs : List (Expr ν τ)}
    (h : ∀ x ∈ xs, ∀ y, compare judge (x.rename ρ) (y.rename ρ) = compare judge x y)
    (ys : List (Expr ν τ)) :
    compareAll judge (xs.map (rename ρ)) (ys.map (rename ρ)) = compareAll judge xs ys := by
  induction xs generalizing ys with
  | nil => cases ys <;> rfl
  | cons x xs ih =>
    cases ys with
    | nil => rfl
    | cons y ys =>
      have hxs := ih (fun e he => h e (List.mem_cons_of_mem x he)) ys
      rw [List.map_cons, List.map_cons, compareAll, compareAll, h x List.mem_cons_self y, hxs]

/-- Two expressions compare as they did before their words were renamed, if no two names have become
one. -/
theorem compare_rename (hρ : Function.Injective ρ) (x y : Expr ν τ) :
    compare judge (x.rename ρ) (y.rename ρ) = compare judge x y := by
  induction x using nested_induction generalizing y with
  | quotation xs ih =>
    cases y with
    | quot ys =>
      rw [rename_quot, rename_quot, compare, compare, compareAll_rename ih]
    | _ => rfl
  | pair a b iha ihb =>
    cases y with
    | pair c d => rw [rename_pair, rename_pair, compare, compare, iha, ihb]
    | _ => rfl
  | leaf x hleaf =>
    have hleaves : compareLeaves judge (x.rename ρ) (y.rename ρ) = compareLeaves judge x y :=
      compareLeaves_rename hρ x y
    cases x with
    | quot _ | pair _ _ => cases hleaf
    | _ => simpa [compare] using hleaves

end Comparing

theorem equals_rename (hρ : Function.Injective ρ) (x y : Expr ν τ) :
    (x.rename ρ).equals (y.rename ρ) = x.equals y := by
  rw [equals_eq_first, equals_eq_first, ← compare_eq_first, ← compare_eq_first, compare_rename hρ]

/-! ## Writing -/

theorem writable_rename (e : Expr ν τ) : Writable (e.rename ρ) ↔ Writable e := by
  cases e <;> rfl

theorem everywhere_writable_rename (e : Expr ν τ) :
    Everywhere Writable (e.rename ρ) ↔ Everywhere Writable e := by
  induction e using nested_induction with
  | quotation items ih =>
    rw [rename_quot, everywhere_quot, everywhere_quot, List.forall_mem_map]
    exact and_congr Iff.rfl (forall₂_congr ih)
  | pair a b iha ihb =>
    rw [rename_pair, everywhere_pair, everywhere_pair, iha, ihb]
    exact and_congr Iff.rfl Iff.rfl
  | leaf e hleaf =>
    have hrenamed : (e.rename ρ).isLeaf = true := (isLeaf_rename e).trans hleaf
    rw [everywhere_leaf hrenamed, everywhere_leaf hleaf, writable_rename]

theorem isSome_render_rename (e : Expr ν τ) : (e.rename ρ).render.isSome = e.render.isSome := by
  rw [Bool.eq_iff_iff, Option.isSome_iff_exists, Option.isSome_iff_exists, exists_render_iff,
    exists_render_iff, everywhere_writable_rename]

end Expr

/-! ## Looking up -/

theorem bodyOf?_rename {ν τ : Type} {ρ : String → String} (hρ : Function.Injective ρ)
    (name : String) (e : Expr ν τ) :
    (e.rename ρ).bodyOf? (ρ name) = (e.bodyOf? name).map (List.map (Expr.rename ρ)) := by
  cases e with
  | defn n body tag =>
    by_cases h : n = name
    · simp [Expr.bodyOf?, h]
    · simp [Expr.bodyOf?, h, hρ.eq_iff]
  | _ => rfl

/-- **A word finds what it found under its old name.** -/
theorem lookup_rename {ν τ : Type} {ρ : String → String} (hρ : Function.Injective ρ)
    (name : String) (values : Stack ν τ) :
    Stack.lookup (ρ name) (values.map (Expr.rename ρ)) =
      (Stack.lookup name values).map (List.map (Expr.rename ρ)) := by
  induction values with
  | nil => rfl
  | cons e rest ih =>
    rw [List.map_cons, Stack.lookup, Stack.lookup, List.findSome?_cons, List.findSome?_cons,
      bodyOf?_rename hρ]
    cases e.bodyOf? name with
    | none => exact ih
    | some body => rfl

end Leftward
