import Leftward.Expr.Render
import Leftward.Proofs.Expr.Parts

/-!
# Spelling — rendering said by recursion

The renderer works off a list of pieces, so that depth costs it nothing. What it writes is said
more plainly by recursion: a quotation is its shown items between brackets with a space between
each two, a pair its members, a leaf itself (`spell`). **The two are one function**
(`render_eq_spell`), also where an integer has no decimal text and nothing is written at all.
-/

namespace Leftward
namespace Expr

variable {ν τ : Type}

mutual

/-- The text of an expression. -/
def spell : Expr ν τ → Option String
  | quot items =>
    match text? items with
    | some text => some (renderText text)
    | none => (spellShown items).map fun texts => "[" ++ " ".intercalate texts ++ "]"
  | pair a b =>
    (spell a).bind fun s => (spell b).map fun t => "(" ++ s ++ " " ++ t ++ ")"
  | e => leaf e

/-- The texts of the items that show. -/
def spellShown : List (Expr ν τ) → Option (List String)
  | [] => some []
  | e :: rest =>
    if e.isComment then spellShown rest
    else (spell e).bind fun s => (spellShown rest).map (s :: ·)

end

theorem spell_leaf {e : Expr ν τ} (hleaf : e.isLeaf = true) : spell e = leaf e := by
  rw [spell]
  · intro items heq
    subst heq
    cases hleaf
  · intro a b heq
    subst heq
    cases hleaf

theorem mapM_cons_option {α β : Type} (f : α → Option β) (x : α) (xs : List α) :
    (x :: xs).mapM f = (f x).bind fun y => (xs.mapM f).map (y :: ·) := by
  rw [List.mapM_cons]
  cases f x <;> cases xs.mapM f <;> rfl

theorem spellShown_eq_mapM (items : List (Expr ν τ)) :
    spellShown items = (shown items).mapM spell := by
  induction items with
  | nil => rfl
  | cons e rest ih =>
    cases he : e.isComment with
    | true => simp [spellShown, shown, he, ih]
    | false =>
      have hshown : shown (e :: rest) = e :: shown rest := by simp [shown, he]
      rw [hshown, mapM_cons_option, ← ih]
      simp [spellShown, he]

theorem renderWork_leaf {e : Expr ν τ} (hleaf : e.isLeaf = true)
    (written : String) (work : List (Piece ν τ)) :
    renderWork written (.expr e :: work) =
      (leaf e).bind fun s => renderWork (written ++ s) work := by
  rw [renderWork]
  · cases leaf e <;> rfl
  · intro items heq
    subst heq
    cases hleaf
  · intro a b heq
    subst heq
    cases hleaf

/-- Pieces with spaces between them are written as their texts with spaces between them, if each
is written as its text. -/
theorem renderWork_spaced (items : List (Expr ν τ))
    (hitems : ∀ e ∈ items, ∀ written work,
      renderWork written (.expr e :: work) = (spell e).bind fun s => renderWork (written ++ s) work)
    (written : String) (work : List (Piece ν τ)) :
    renderWork written (Piece.spaced items ++ work) =
      (items.mapM spell).bind fun texts =>
        renderWork (written ++ " ".intercalate texts) work := by
  induction items generalizing written with
  | nil => simp [Piece.spaced]
  | cons e rest ih =>
    have hrest := ih fun x hx => hitems x (List.mem_cons_of_mem e hx)
    have he := hitems e List.mem_cons_self
    rw [mapM_cons_option]
    cases rest with
    | nil =>
      simp only [Piece.spaced, List.cons_append, List.nil_append, he]
      cases spell e <;> simp
    | cons e' rest' =>
      simp only [Piece.spaced, List.cons_append, he, renderWork]
      cases spell e with
      | none => rfl
      | some s =>
        simp only [Option.bind_some, hrest, mapM_cons_option]
        cases spell e' <;> cases rest'.mapM spell <;> simp [String.append_assoc]

/-- **An expression among the pieces is written as its text.** -/
theorem renderWork_expr (e : Expr ν τ) (written : String) (work : List (Piece ν τ)) :
    renderWork written (.expr e :: work) =
      (spell e).bind fun s => renderWork (written ++ s) work := by
  induction e using nested_induction generalizing written work with
  | quotation items ih =>
    rw [renderWork, spell]
    cases text? items with
    | some text => rfl
    | none =>
      have hshown : ∀ e ∈ shown items, ∀ written work, renderWork written (.expr e :: work) =
          (spell e).bind fun s => renderWork (written ++ s) work :=
        fun e he => ih e (List.mem_filter.mp he).1
      simp only [renderWork_spaced (shown items) hshown, spellShown_eq_mapM]
      cases (shown items).mapM spell <;> simp [renderWork, String.append_assoc]
  | pair a b iha ihb =>
    rw [renderWork, iha, spell]
    cases spell a with
    | none => rfl
    | some s =>
      simp only [Option.bind_some, renderWork, ihb]
      cases spell b <;> simp [String.append_assoc]
  | leaf e hleaf => rw [spell_leaf hleaf, renderWork_leaf hleaf]

/-- **Rendering is spelling.** -/
theorem render_eq_spell (e : Expr ν τ) : e.render = e.spell := by
  rw [render, renderWork_expr]
  cases spell e <;> simp [renderWork]

end Expr
end Leftward
