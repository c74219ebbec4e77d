import Leftward.Proofs.Expr.Comparison
import Leftward.Proofs.Expr.Spelling
import Mathlib.Data.List.Forall2

/-!
# Comments in bodies

A comment that lies directly in the body of a definition is read when the body is, and then it
vanishes. Two expressions that differ in such comments alone are told apart by nothing in the
language: they have one kind, one text (`Sheds.render_eq`), and compare with others in one way
(`Sheds.equals_eq`). A word finds two bodies then, and one is the other with comments less
(`lookup_sheds`).

**The comments of a quotation are another matter.** They count in its length and in comparisons and
come to light when it is taken apart, so none of them goes.
-/

namespace Leftward
namespace Expr

variable {ν τ : Type}

/-! ## Without comments -/

mutual

/-- The expression without the comments that lie directly in the body of a definition, at whatever
depth the definition lies. -/
def bare : Expr ν τ → Expr ν τ
  | quot items => quot (bareAll items)
  | pair a b => pair (bare a) (bare b)
  | defn name body tag => defn name ((bareAll body).filter (!·.isComment)) tag
  | e => e

/-- The expressions, each without such comments. -/
def bareAll : List (Expr ν τ) → List (Expr ν τ)
  | [] => []
  | e :: rest => bare e :: bareAll rest

end

theorem bareAll_eq_map (items : List (Expr ν τ)) : bareAll items = items.map bare := by
  induction items with
  | nil => rfl
  | cons e rest ih => rw [bareAll, ih, List.map_cons]

/-! ## Some comments less -/

/-- The second list is the first without some of the comments in it, and what is left is related. -/
inductive Thinned (R : Expr ν τ → Expr ν τ → Prop) : List (Expr ν τ) → List (Expr ν τ) → Prop where
  | nil : Thinned R [] []
  | keep {e e' : Expr ν τ} {es es' : List (Expr ν τ)} :
    R e e' → Thinned R es es' → Thinned R (e :: es) (e' :: es')
  | drop {text : String} {es es' : List (Expr ν τ)} :
    Thinned R es es' → Thinned R (comment text :: es) es'

/-- The second expression is the first without some of the comments that lie directly in bodies. The
tags of definitions are not looked at. -/
inductive Sheds : Expr ν τ → Expr ν τ → Prop where
  | same (e : Expr ν τ) : Sheds e e
  | quot {items items' : List (Expr ν τ)} :
    List.Forall₂ Sheds items items' → Sheds (quot items) (quot items')
  | pair {a a' b b' : Expr ν τ} : Sheds a a' → Sheds b b' → Sheds (pair a b) (pair a' b')
  | defn {name : String} {body body' : List (Expr ν τ)} {tag tag' : τ} :
    Thinned Sheds body body' → Sheds (defn name body tag) (defn name body' tag')

namespace Thinned

variable {R : Expr ν τ → Expr ν τ → Prop} {es es' fs fs' : List (Expr ν τ)}

theorem of_forall₂ (h : List.Forall₂ R es es') : Thinned R es es' := by
  induction h with
  | nil => exact .nil
  | cons he _ ih => exact .keep he ih

theorem append (h : Thinned R es es') (hf : Thinned R fs fs') :
    Thinned R (es ++ fs) (es' ++ fs') := by
  induction h with
  | nil => exact hf
  | keep he _ ih => exact .keep he ih
  | drop _ ih => exact .drop ih

theorem reverse (h : Thinned R es es') : Thinned R es.reverse es'.reverse := by
  induction h with
  | nil => exact .nil
  | keep he _ ih =>
    rw [List.reverse_cons, List.reverse_cons]
    exact ih.append (.keep he .nil)
  | @drop text es es' _ ih =>
    rw [List.reverse_cons, ← List.append_nil es'.reverse]
    exact ih.append (.drop .nil)

end Thinned

theorem forall₂_same (items : List (Expr ν τ)) : List.Forall₂ Sheds items items :=
  List.forall₂_same.mpr fun e _ => .same e

namespace Sheds

variable {e e' a b : Expr ν τ} {items body : List (Expr ν τ)} {name : String} {tag : τ}

/-! ## What the other expression can be -/

theorem of_quot (h : Sheds (.quot items) e') :
    ∃ items', e' = .quot items' ∧ List.Forall₂ Sheds items items' := by
  cases h with
  | same => exact ⟨items, rfl, forall₂_same items⟩
  | quot h => exact ⟨_, rfl, h⟩

theorem of_pair (h : Sheds (.pair a b) e') :
    ∃ a' b', e' = .pair a' b' ∧ Sheds a a' ∧ Sheds b b' := by
  cases h with
  | same => exact ⟨a, b, rfl, .same a, .same b⟩
  | pair ha hb => exact ⟨_, _, rfl, ha, hb⟩

theorem of_defn (h : Sheds (.defn name body tag) e') :
    ∃ body' tag', e' = .defn name body' tag' ∧ Thinned Sheds body body' := by
  cases h with
  | same => exact ⟨body, tag, rfl, .of_forall₂ (forall₂_same body)⟩
  | defn h => exact ⟨_, _, rfl, h⟩

/-! ## What stays -/

theorem kind_eq (h : Sheds e e') : e'.kind = e.kind := by
  cases h <;> rfl

theorem truthy_eq (h : Sheds e e') : e'.truthy = e.truthy := by
  cases h <;> rfl

theorem isComment_eq (h : Sheds e e') : e'.isComment = e.isComment := by
  cases h <;> rfl

theorem char?_eq (h : Sheds e e') : e'.char? = e.char? := by
  cases h <;> rfl

theorem bodyOf?_rel (h : Sheds e e') (name : String) :
    Option.Rel (Thinned Sheds) (e.bodyOf? name) (e'.bodyOf? name) := by
  cases e with
  | defn n body tag =>
    obtain ⟨body', tag', rfl, hbody⟩ := h.of_defn
    simp only [bodyOf?]
    split
    · exact .some hbody
    · exact .none
  | _ => cases h <;> exact .none

end Sheds

section Lists

variable {items items' : List (Expr ν τ)}

theorem text?_sheds (h : List.Forall₂ Sheds items items') : text? items' = text? items := by
  induction h with
  | nil => rfl
  | cons he _ ih => rw [text?_cons, text?_cons, he.char?_eq, ih]

theorem spellShown_sheds (h : List.Forall₂ Sheds items items')
    (hspell : ∀ e ∈ items, ∀ e', Sheds e e' → spell e' = spell e) :
    spellShown items' = spellShown items := by
  induction h with
  | nil => rfl
  | @cons e e' rest rest' he _ ih =>
    have hrest := ih fun x hx => hspell x (List.mem_cons_of_mem e hx)
    rw [spellShown, spellShown, he.isComment_eq, hspell e List.mem_cons_self e' he, hrest]

/-- What is left of the items when its comments are taken away is left of items that have shed. -/
theorem thinned_filter (h : List.Forall₂ Sheds items items') :
    Thinned Sheds items (items'.filter (!·.isComment)) := by
  induction h with
  | nil => exact .nil
  | @cons e e' rest rest' he _ ih =>
    cases hcomment : e'.isComment with
    | false =>
      rw [List.filter_cons_of_pos (by simp [hcomment])]
      exact .keep he ih
    | true =>
      rw [List.filter_cons_of_neg (by simp [hcomment])]
      rw [he.isComment_eq] at hcomment
      cases e with
      | comment text => exact .drop ih
      | _ => cases hcomment

end Lists

mutual

theorem sheds_bare : (e : Expr ν τ) → Sheds e (bare e)
  | quot items => .quot (forall₂_bareAll items)
  | pair a b => .pair (sheds_bare a) (sheds_bare b)
  | defn _ body _ => .defn (thinned_filter (forall₂_bareAll body))
  | word _ | num _ | bool _ | chr _ | native _ _ | comment _ => .same _

theorem forall₂_bareAll : (items : List (Expr ν τ)) → List.Forall₂ Sheds items (bareAll items)
  | [] => .nil
  | e :: rest => .cons (sheds_bare e) (forall₂_bareAll rest)

end

theorem forall₂_map_bare (items : List (Expr ν τ)) : List.Forall₂ Sheds items (items.map bare) := by
  rw [← bareAll_eq_map]
  exact forall₂_bareAll items

/-- A program without its comments and without those in bodies. -/
theorem thinned_bare (p : List (Expr ν τ)) :
    Thinned Sheds p ((p.filter (!·.isComment)).map bare) := by
  have hkept : (fun e : Expr ν τ => !e.isComment) ∘ bare = fun e => !e.isComment :=
    funext fun e => congrArg Bool.not (sheds_bare e).isComment_eq
  have hfilter := thinned_filter (forall₂_map_bare p)
  rwa [List.filter_map, hkept] at hfilter

/-! ## Texts -/

theorem Sheds.render_eq {e e' : Expr ν τ} (h : Sheds e e') : e'.render = e.render := by
  rw [render_eq_spell, render_eq_spell]
  induction e using nested_induction generalizing e' with
  | quotation items ih =>
    obtain ⟨items', rfl, hitems⟩ := h.of_quot
    have hshown := spellShown_sheds hitems fun x hx x' hx' => ih x hx hx'
    rw [spell, spell, text?_sheds hitems, hshown]
  | pair a b iha ihb =>
    obtain ⟨a', b', rfl, ha, hb⟩ := h.of_pair
    rw [spell, spell, iha ha, ihb hb]
  | leaf e hleaf =>
    cases h with
    | same => rfl
    | defn => rfl
    | quot | pair => cases hleaf

/-! ## Comparing -/

theorem compareAll_sheds {xs xs' : List (Expr ν τ)} (h : List.Forall₂ Sheds xs xs')
    (hcompare : ∀ x ∈ xs, ∀ x' y y', Sheds x x' → Sheds y y' →
      compare .language x' y' = compare .language x y)
    {ys ys' : List (Expr ν τ)} (hys : List.Forall₂ Sheds ys ys') :
    compareAll .language xs' ys' = compareAll .language xs ys := by
  induction h generalizing ys ys' with
  | nil => cases hys <;> rfl
  | @cons x x' xs xs' hx _ ih =>
    cases hys with
    | nil => rfl
    | cons hy hys =>
      have hrest := ih (fun e he => hcompare e (List.mem_cons_of_mem x he)) hys
      rw [compareAll, compareAll, hcompare x List.mem_cons_self x' _ _ hx hy, hrest]

theorem Sheds.compare_eq {x x' y y' : Expr ν τ} (hx : Sheds x x') (hy : Sheds y y') :
    compare .language x' y' = compare .language x y := by
  induction x using nested_induction generalizing x' y y' with
  | quotation xs ih =>
    obtain ⟨xs', rfl, hxs⟩ := hx.of_quot
    cases y with
    | quot ys =>
      obtain ⟨ys', rfl, hys⟩ := hy.of_quot
      rw [compare, compare]
      exact compareAll_sheds hxs (fun x hx _ _ _ hx' hy' => ih x hx hx' hy') hys
    | _ => cases hy <;> rfl
  | pair a b iha ihb =>
    obtain ⟨a', b', rfl, ha, hb⟩ := hx.of_pair
    cases y with
    | pair c d =>
      obtain ⟨c', d', rfl, hc, hd⟩ := hy.of_pair
      rw [compare, compare, iha ha hc, ihb hb hd]
    | _ => cases hy <;> rfl
  | leaf x hleaf =>
    cases x with
    | quot | pair => cases hleaf
    | _ => cases hx <;> cases y <;> cases hy <;> rfl

theorem Sheds.equals_eq {x x' y y' : Expr ν τ} (hx : Sheds x x') (hy : Sheds y y') :
    x'.equals y' = x.equals y := by
  rw [equals_eq_first, equals_eq_first, ← compare_eq_first, ← compare_eq_first, hx.compare_eq hy]

end Expr

/-! ## Stacks -/

section Stacks

open Leftward.Expr

variable {ν τ : Type} {values values' : Stack ν τ}

/-- **A word finds the same body**, or one with comments less. -/
theorem lookup_sheds (h : List.Forall₂ Sheds values values') (name : String) :
    Option.Rel (Thinned Sheds) (Stack.lookup name values) (Stack.lookup name values') := by
  induction h with
  | nil => exact .none
  | @cons e e' rest rest' he _ ih =>
    have hbody := he.bodyOf?_rel name
    simp only [Stack.lookup, List.findSome?_cons]
    generalize e.bodyOf? name = found, e'.bodyOf? name = found' at hbody
    cases hbody with
    | none => exact ih
    | some hbody => exact .some hbody

theorem render_sheds (h : List.Forall₂ Sheds values values') :
    Stack.render values' = Stack.render values := by
  have htexts : values'.mapM Expr.render = values.mapM Expr.render := by
    induction h with
    | nil => rfl
    | cons he _ ih => rw [mapM_cons_option, mapM_cons_option, he.render_eq, ih]
  rw [Stack.render, Stack.render, htexts]

theorem preview_sheds (h : List.Forall₂ Sheds values values') (limit : Int) :
    Stack.preview limit values' = Stack.preview limit values := by
  rw [Stack.preview, Stack.preview, (Sheds.quot h).render_eq]

end Stacks
end Leftward
