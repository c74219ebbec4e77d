import Leftward.Expr

/-!
# Natives — where native operations lie in an expression

A native operation can lie anywhere: at the top level of a stack, as an item of a quotation, in a
pair, in the body of a definition. `natives` lists them all, **bodies included**, since a body is
read as soon as its word is.
-/

namespace Leftward
namespace Expr

variable {ν τ : Type}

mutual

/-- The native operations in an expression, at every depth. -/
def natives : Expr ν τ → List ν
  | native op _ => [op]
  | quot items => nativesAll items
  | pair a b => natives a ++ natives b
  | defn _ body _ => nativesAll body
  | _ => []

/-- The native operations in a list of expressions, at every depth. -/
def nativesAll : List (Expr ν τ) → List ν
  | [] => []
  | e :: rest => natives e ++ nativesAll rest

end

theorem mem_nativesAll {op : ν} {items : List (Expr ν τ)} :
    op ∈ nativesAll items ↔ ∃ e ∈ items, op ∈ natives e := by
  induction items with
  | nil => simp [nativesAll]
  | cons e rest ih => simp [nativesAll, ih]

@[simp] theorem nativesAll_append (xs ys : List (Expr ν τ)) :
    nativesAll (xs ++ ys) = nativesAll xs ++ nativesAll ys := by
  induction xs with
  | nil => rfl
  | cons e xs ih => rw [List.cons_append, nativesAll, nativesAll, ih, List.append_assoc]

theorem nativesAll_subset {xs ys : List (Expr ν τ)} (h : xs ⊆ ys) :
    nativesAll xs ⊆ nativesAll ys := by
  intro op hop
  obtain ⟨e, he, hop⟩ := mem_nativesAll.mp hop
  exact mem_nativesAll.mpr ⟨e, h he, hop⟩

theorem nativesAll_map_chr (text : List Char) :
    nativesAll (text.map (chr (ν := ν) (τ := τ))) = [] := by
  induction text with
  | nil => rfl
  | cons c text ih => rw [List.map_cons, nativesAll, ih]; rfl

end Expr

/-- A body that is found on a stack holds no native that the stack does not hold. -/
theorem natives_of_lookup {ν τ : Type} {name : String} {values : Stack ν τ}
    {body : List (Expr ν τ)} (h : Stack.lookup name values = some body) :
    Expr.nativesAll body ⊆ Expr.nativesAll values := by
  obtain ⟨e, he, hbody⟩ := List.exists_of_findSome?_eq_some h
  intro op hop
  refine Expr.mem_nativesAll.mpr ⟨e, he, ?_⟩
  cases e with
  | defn n b tag =>
    simp only [Expr.bodyOf?, Option.ite_none_right_eq_some, Option.some.injEq] at hbody
    rw [Expr.natives, hbody.2]
    exact hop
  | _ => cases hbody

end Leftward
