import Leftward.Expr

/-!
# Parts — what an expression is made of

A quotation is made of its items and a pair of its members, and they of theirs. **A definition's
body is no part of it**: nothing that compares, renders or reads expressions looks into one.

A condition on every part (`Everywhere`) is a condition on the whole and, again everywhere, on the
items or members, which is the shape in which inductions over nested expressions use it.
-/

namespace Leftward
namespace Expr

variable {ν τ : Type}

/-- Whether the expression is neither a quotation nor a pair. -/
def isLeaf : Expr ν τ → Bool
  | quot _ | pair _ _ => false
  | _ => true

/-- Induction over nested quotations and pairs. -/
theorem nested_induction {P : Expr ν τ → Prop}
    (quotation : ∀ items, (∀ e ∈ items, P e) → P (.quot items))
    (pair : ∀ a b, P a → P b → P (.pair a b))
    (leaf : ∀ e : Expr ν τ, e.isLeaf = true → P e) (e : Expr ν τ) : P e := by
  refine @Expr.rec ν τ P (fun items => ∀ e ∈ items, P e)
    ?word ?num ?bool ?chr quotation pair ?defn ?native ?comment ?nil ?cons e
  case nil => simp
  case cons =>
    intro head tail hhead htail e he
    rcases List.mem_cons.mp he with rfl | he
    · exact hhead
    · exact htail e he
  all_goals
    intros
    exact leaf _ rfl

/-! ## Parts -/

/-- The first expression is the second or lies inside it. -/
inductive Part : Expr ν τ → Expr ν τ → Prop where
  | whole {e : Expr ν τ} : Part e e
  | item {x e : Expr ν τ} {items : List (Expr ν τ)} : e ∈ items → Part x e → Part x (.quot items)
  | first {x a b : Expr ν τ} : Part x a → Part x (.pair a b)
  | second {x a b : Expr ν τ} : Part x b → Part x (.pair a b)

/-- The condition holds of the expression and of everything inside it. -/
def Everywhere (p : Expr ν τ → Prop) (e : Expr ν τ) : Prop := ∀ x, Part x e → p x

variable {p q : Expr ν τ → Prop}

theorem Everywhere.self {e : Expr ν τ} (h : Everywhere p e) : p e := h e .whole

theorem Everywhere.imp (hpq : ∀ x, p x → q x) {e : Expr ν τ} (h : Everywhere p e) :
    Everywhere q e := fun x hx => hpq x (h x hx)

theorem everywhere_quot {items : List (Expr ν τ)} :
    Everywhere p (.quot items) ↔ p (.quot items) ∧ ∀ e ∈ items, Everywhere p e := by
  constructor
  · intro h
    exact ⟨h.self, fun e he x hx => h x (.item he hx)⟩
  · intro h x hx
    obtain ⟨hself, hitems⟩ := h
    cases hx with
    | whole => exact hself
    | item he hx => exact hitems _ he x hx

theorem everywhere_pair {a b : Expr ν τ} :
    Everywhere p (.pair a b) ↔ p (.pair a b) ∧ Everywhere p a ∧ Everywhere p b := by
  constructor
  · intro h
    exact ⟨h.self, fun x hx => h x (.first hx), fun x hx => h x (.second hx)⟩
  · intro h x hx
    obtain ⟨hself, ha, hb⟩ := h
    cases hx with
    | whole => exact hself
    | first hx => exact ha x hx
    | second hx => exact hb x hx

/-- What is neither a quotation nor a pair is its only part. -/
theorem everywhere_leaf {e : Expr ν τ} (hleaf : e.isLeaf = true) :
    Everywhere p e ↔ p e := by
  constructor
  · exact Everywhere.self
  · intro h x hx
    cases hx with
    | whole => exact h
    | item | first | second => cases hleaf

/-! ## Strings -/

theorem text?_cons (e : Expr ν τ) (rest : List (Expr ν τ)) :
    text? (e :: rest) = e.char?.bind fun c => (text? rest).map (c :: ·) := by
  simp only [text?, List.mapM_cons]
  cases e.char? <;> cases rest.mapM char? <;> rfl

theorem text?_eq_some_iff {items : List (Expr ν τ)} {text : List Char} :
    text? items = some text ↔ items = text.map .chr := by
  induction items generalizing text with
  | nil => cases text <;> simp [text?]
  | cons e rest ih =>
    rw [text?_cons]
    cases e with
    | chr c =>
      cases text with
      | nil => simp [char?]
      | cons d ds =>
        simp only [char?, Option.bind_some, Option.map_eq_some_iff, ih, List.cons.injEq,
          List.map_cons, chr.injEq]
        constructor
        · intro h
          obtain ⟨_, hrest, hc, rfl⟩ := h
          exact ⟨hc, hrest⟩
        · intro h
          obtain ⟨hc, hrest⟩ := h
          exact ⟨ds, hrest, hc, rfl⟩
    | _ => cases text <;> simp [char?]

theorem text?_map_chr (text : List Char) : text? (text.map (chr (ν := ν) (τ := τ))) = some text :=
  text?_eq_some_iff.mpr rfl

/-! ## Nesting -/

mutual

/-- How many brackets stand inside each other in the text of an expression. The text of a string
has none, whatever the string holds. -/
def nesting : Expr ν τ → Nat
  | quot items => if (text? items).isSome then 0 else nestingAll items + 1
  | pair a b => max (nesting a) (nesting b) + 1
  | _ => 0

/-- The deepest nesting among expressions that stand side by side. -/
def nestingAll : List (Expr ν τ) → Nat
  | [] => 0
  | e :: rest => max (nesting e) (nestingAll rest)

end

theorem nesting_quot {items : List (Expr ν τ)} (h : text? items = none) :
    nesting (quot items) = nestingAll items + 1 := by
  simp [nesting, h]

theorem nestingAll_le {items : List (Expr ν τ)} {n : Nat} :
    nestingAll items ≤ n ↔ ∀ e ∈ items, nesting e ≤ n := by
  induction items with
  | nil => simp [nestingAll]
  | cons e rest ih => simp only [nestingAll, Nat.max_le, ih, List.forall_mem_cons]

end Expr
end Leftward
