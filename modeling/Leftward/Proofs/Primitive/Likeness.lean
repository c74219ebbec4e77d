import Leftward.Primitive.Action
import Leftward.Proofs.Expr.Parts
import Mathlib.Data.List.Forall2

/-!
# Likeness — what a primitive cannot tell apart

A primitive looks at little: how many values there are, of which kind they are, the number in a
number, the items of a quotation as a list, whether two values are equal. **Two stacks that are
alike in what it looks at it treats alike** (`act_related`): it fires in both or in neither, and
what it leaves is alike again.

What "alike" means is left open. It is a relation between expressions that lets those things be seen
through it (`Likeness`). Whoever wants to know that something about expressions is not noticed says
which expressions are alike, and has one thing to prove of the relation instead of one of each
primitive. `show` looks at the text of a value, too, and for it the texts must be the same.
-/

namespace Leftward

variable {ν τ : Type}

namespace Expr

/-- Two expressions of one kind with one number, truth value or character in them, or one native,
and with related items if they are quotations. -/
inductive Shape (R : Expr ν τ → Expr ν τ → Prop) : Expr ν τ → Expr ν τ → Prop where
  | word (name name' : String) : Shape R (word name) (word name')
  | num (value : Int) : Shape R (num value) (num value)
  | bool (value : Bool) : Shape R (bool value) (bool value)
  | chr (c : Char) : Shape R (chr c) (chr c)
  | quot {items items' : List (Expr ν τ)} :
    List.Forall₂ R items items' → Shape R (quot items) (quot items')
  | pair (a a' b b' : Expr ν τ) : Shape R (pair a b) (pair a' b')
  | defn (name name' : String) (body body' : List (Expr ν τ)) (tag tag' : τ) :
    Shape R (defn name body tag) (defn name' body' tag')
  | native (op : ν) (tag : τ) : Shape R (native op tag) (native op tag)
  | comment (text text' : String) : Shape R (comment text) (comment text')

/-- A relation that a primitive cannot see through, if a definition that it makes gets these
tags. -/
structure Likeness (R : Expr ν τ → Expr ν τ → Prop) (tag tag' : τ) : Prop where
  shape {e e' : Expr ν τ} : R e e' → Shape R e e'
  equals {x x' y y' : Expr ν τ} : R x x' → R y y' → x'.equals y' = x.equals y
  num (value : Int) : R (num value) (num value)
  bool (value : Bool) : R (bool value) (bool value)
  chr (c : Char) : R (chr c) (chr c)
  quot {items items' : List (Expr ν τ)} :
    List.Forall₂ R items items' → R (quot items) (quot items')
  defn {name name' : String} {body body' : List (Expr ν τ)} :
    R (word name) (word name') → List.Forall₂ R body body' →
    R (defn name body tag) (defn name' body' tag')

namespace Likeness

variable {R : Expr ν τ → Expr ν τ → Prop} {tag tag' : τ} {e e' : Expr ν τ}

theorem kind_eq (hR : Likeness R tag tag') (h : R e e') : e'.kind = e.kind := by
  cases hR.shape h <;> rfl

theorem truthy_eq (hR : Likeness R tag tag') (h : R e e') : e'.truthy = e.truthy := by
  cases hR.shape h <;> rfl

/-- A string is like itself. -/
theorem text (hR : Likeness R tag tag') (text : String) : R (ofText text) (ofText text) := by
  refine hR.quot (List.forall₂_same.mpr fun e he => ?_)
  obtain ⟨c, -, rfl⟩ := List.mem_map.mp he
  exact hR.chr c

end Likeness
end Expr

/-! ## Outcomes that are alike -/

/-- The causes are of one sort and tell of numbers that are the same and of expressions that are
related. -/
inductive Cause.Related (R : Expr ν τ → Expr ν τ → Prop) : Cause ν τ → Cause ν τ → Prop where
  | tooFew (op : Primitive) (needed found : Nat) :
    Related R (tooFew op needed found) (tooFew op needed found)
  | unexpected (op : Primitive) (wanted : Kind) {found found' : Expr ν τ} :
    R found found' → Related R (unexpected op wanted found) (unexpected op wanted found')
  | negativeDepth (reach : Reach) (depth : Int) :
    Related R (negativeDepth reach depth) (negativeDepth reach depth)
  | splitOutside (length : Nat) (index : Int) :
    Related R (splitOutside length index) (splitOutside length index)
  | emptyUncons : Related R emptyUncons emptyUncons
  | notNullable {found found' : Expr ν τ} :
    R found found' → Related R (notNullable found) (notNullable found')
  | notApplicable {found found' : Expr ν τ} :
    R found found' → Related R (notApplicable found) (notApplicable found')
  | incomparable (refusal : Refusal) : Related R (incomparable refusal) (incomparable refusal)
  | divisionByZero (op : Primitive) (dividend : Int) :
    Related R (divisionByZero op dividend) (divisionByZero op dividend)
  | croaked {message message' : Expr ν τ} :
    R message message' → Related R (croaked message) (croaked message')

/-- The failures tell of related causes and show related stacks, or neither shows one. -/
inductive Failure.Related (R : Expr ν τ → Expr ν τ → Prop) : Failure ν τ → Failure ν τ → Prop where
  | fault {cause cause' : Cause ν τ} {stack stack' : Option (Stack ν τ)} :
    cause.Related R cause' → Option.Rel (List.Forall₂ R) stack stack' →
    Related R (.fault ⟨cause, stack⟩) (.fault ⟨cause', stack'⟩)
  | breakdown (b : Breakdown) : Related R (.breakdown b) (.breakdown b)

/-- The outcomes are of one sort, and what is in them is related. -/
inductive Outcome.Related (R : Expr ν τ → Expr ν τ → Prop) : Outcome ν τ → Outcome ν τ → Prop where
  | applied {front front' : List (Expr ν τ)} {base base' : Stack ν τ} :
    List.Forall₂ R front front' → List.Forall₂ R base base' →
    Related R (.applied front base) (.applied front' base')
  | deferred : Related R .deferred .deferred
  | failed {failure failure' : Failure ν τ} :
    failure.Related R failure' → Related R (.failed failure) (.failed failure')

section Related

variable {R : Expr ν τ → Expr ν τ → Prop} {values values' : Stack ν τ}

theorem Cause.Related.category_eq {cause cause' : Cause ν τ} (h : cause.Related R cause') :
    cause'.category = cause.category := by
  cases h <;> rfl

theorem Failure.Related.located {failure failure' : Failure ν τ}
    (h : failure.Related R failure') (hvalues : List.Forall₂ R values values') :
    (failure.located values).Related R (failure'.located values') := by
  cases h with
  | fault hcause hstack =>
    cases hstack with
    | none => exact .fault hcause (.some hvalues)
    | some hfound => exact .fault hcause (.some hfound)
  | breakdown b => exact .breakdown b

theorem Outcome.Related.fail {cause cause' : Cause ν τ} (hcause : cause.Related R cause')
    (h : List.Forall₂ R values values') :
    (Action.fail cause values).Related R (Action.fail cause' values') :=
  .failed (.fault hcause (.some h))

theorem Outcome.Related.short {op : Primitive} {needed : Nat} (h : List.Forall₂ R values values') :
    (Action.short op needed values).Related R (Action.short op needed values') := by
  rw [Action.short, Action.short, h.length_eq]
  exact .fail (.tooFew _ _ _) h

/-- What is cut off related stacks is related, and so is what is left of them. -/
theorem take?_related (h : List.Forall₂ R values values') (n : Nat) :
    (Stack.take? n values = none ∧ Stack.take? n values' = none) ∨
      ∃ above below above' below', Stack.take? n values = some (above, below) ∧
        Stack.take? n values' = some (above', below') ∧ List.Forall₂ R above above' ∧
        List.Forall₂ R below below' := by
  rw [Stack.take?_eq, Stack.take?_eq, h.length_eq]
  split
  · exact .inr ⟨_, _, _, _, rfl, rfl, List.forall₂_take n h, List.forall₂_drop n h⟩
  · exact .inl ⟨rfl, rfl⟩

end Related

/-! ## One action after the other

Each action is a match on what is on top, and the cases are those of the match. -/

namespace Action

open Leftward.Expr

variable {R : Expr ν τ → Expr ν τ → Prop} {tag tag' : τ} {values values' : Stack ν τ}

theorem related_drop (h : List.Forall₂ R values values') :
    (drop values).Related R (drop values') := by
  rcases h with _ | ⟨-, h⟩
  · exact .short .nil
  · exact .applied .nil h

theorem related_dup (h : List.Forall₂ R values values') :
    (dup values).Related R (dup values') := by
  rcases h with _ | ⟨he, h⟩
  · exact .short .nil
  · exact .applied (.cons he (.cons he .nil)) h

theorem related_bury (hR : Likeness R tag tag') (h : List.Forall₂ R values values') :
    (bury values).Related R (bury values') := by
  rcases h with _ | ⟨hn, _ | ⟨he, h⟩⟩
  · exact .short .nil
  · simp only [bury]
    exact .short (.cons hn .nil)
  · have hall := List.Forall₂.cons hn (.cons he h)
    have hshape := hR.shape hn
    cases hshape with
    | num depth =>
      simp only [bury]
      split
      · exact .fail (.negativeDepth _ _) hall
      · rcases take?_related h depth.toNat with
          ⟨hnone, hnone'⟩ | ⟨_, _, _, _, hcut, hcut', habove, hbelow⟩
        · rw [hnone, hnone']
          exact .short h
        · rw [hcut, hcut']
          exact .applied (List.rel_append habove (.cons he .nil)) hbelow
    | _ => exact .fail (.unexpected _ _ hn) hall

theorem related_exhume (hR : Likeness R tag tag') (h : List.Forall₂ R values values') :
    (exhume values).Related R (exhume values') := by
  rcases h with _ | ⟨hn, h⟩
  · exact .short .nil
  · have hall := List.Forall₂.cons hn h
    have hshape := hR.shape hn
    cases hshape with
    | num depth =>
      simp only [exhume]
      split
      · exact .fail (.negativeDepth _ _) hall
      · rcases take?_related h depth.toNat with
          ⟨hnone, hnone'⟩ | ⟨_, _, _, _, hcut, hcut', habove, _ | ⟨he, hbelow⟩⟩
        · rw [hnone, hnone']
          exact .short h
        · rw [hcut, hcut']
          exact .short h
        · rw [hcut, hcut']
          exact .applied (.cons he habove) hbelow
    | _ => exact .fail (.unexpected _ _ hn) hall

theorem related_equal (hR : Likeness R tag tag') (h : List.Forall₂ R values values') :
    (equal values).Related R (equal values') := by
  rcases h with _ | ⟨he, _ | ⟨hf, h⟩⟩
  · exact .short .nil
  · exact .short (.cons he .nil)
  · simp only [equal, hR.equals he hf]
    split
    · exact .applied (.cons (hR.bool _) .nil) h
    · exact .failed (.fault (.incomparable _) .none)

theorem related_not (hR : Likeness R tag tag') (h : List.Forall₂ R values values') :
    (not values).Related R (not values') := by
  rcases h with _ | ⟨he, h⟩
  · exact .short .nil
  · simp only [not, hR.truthy_eq he]
    exact .applied (.cons (hR.bool _) .nil) h

theorem related_or (hR : Likeness R tag tag') (h : List.Forall₂ R values values') :
    (or values).Related R (or values') := by
  rcases h with _ | ⟨hy, _ | ⟨hx, h⟩⟩
  · exact .short .nil
  · exact .short (.cons hy .nil)
  · simp only [or, hR.truthy_eq hx]
    split
    · exact .applied (.cons hx .nil) h
    · exact .applied (.cons hy .nil) h

theorem related_and (hR : Likeness R tag tag') (h : List.Forall₂ R values values') :
    (and values).Related R (and values') := by
  rcases h with _ | ⟨hy, _ | ⟨hx, h⟩⟩
  · exact .short .nil
  · exact .short (.cons hy .nil)
  · simp only [and, hR.truthy_eq hx]
    split
    · exact .applied (.cons hy .nil) h
    · exact .applied (.cons hx .nil) h

theorem related_quote (hR : Likeness R tag tag') (h : List.Forall₂ R values values') :
    (quote values).Related R (quote values') := by
  rcases h with _ | ⟨he, h⟩
  · exact .short .nil
  · exact .applied (.cons (hR.quot (.cons he .nil)) .nil) h

theorem related_cons (hR : Likeness R tag tag') (h : List.Forall₂ R values values') :
    (cons values).Related R (cons values') := by
  rcases h with _ | ⟨he, _ | ⟨hq, h⟩⟩
  · exact .short .nil
  · exact .short (.cons he .nil)
  · have hall := List.Forall₂.cons he (.cons hq h)
    have hshape := hR.shape hq
    cases hshape with
    | quot hitems => exact .applied (.cons (hR.quot (.cons he hitems)) .nil) h
    | _ => exact .fail (.unexpected _ _ hq) hall

theorem related_uncons (hR : Likeness R tag tag') (h : List.Forall₂ R values values') :
    (uncons values).Related R (uncons values') := by
  rcases h with _ | ⟨hq, h⟩
  · exact .short .nil
  · have hall := List.Forall₂.cons hq h
    have hshape := hR.shape hq
    cases hshape with
    | quot hitems =>
      rcases hitems with _ | ⟨he, hitems⟩
      · exact .fail .emptyUncons hall
      · exact .applied (.cons he (.cons (hR.quot hitems) .nil)) h
    | _ => exact .fail (.unexpected _ _ hq) hall

theorem related_splitAt (hR : Likeness R tag tag') (h : List.Forall₂ R values values') :
    (splitAt values).Related R (splitAt values') := by
  rcases h with _ | ⟨hn, _ | ⟨hq, h⟩⟩
  · exact .short .nil
  · simp only [splitAt]
    exact .short (.cons hn .nil)
  · have hall := List.Forall₂.cons hn (.cons hq h)
    have hnumber := hR.shape hn
    cases hnumber with
    | num index =>
      have hquotation := hR.shape hq
      cases hquotation with
      | quot hitems =>
        simp only [splitAt, hitems.length_eq]
        split
        · exact .fail (.splitOutside _ _) hall
        · exact .applied (.cons (hR.quot (List.forall₂_take _ hitems))
            (.cons (hR.quot (List.forall₂_drop _ hitems)) .nil)) h
      | _ => exact .fail (.unexpected _ _ hq) hall
    | _ => exact .fail (.unexpected _ _ hn) hall

theorem related_null (hR : Likeness R tag tag') (h : List.Forall₂ R values values') :
    (null values).Related R (null values') := by
  rcases h with _ | ⟨hq, h⟩
  · exact .short .nil
  · have hall := List.Forall₂.cons hq h
    have hshape := hR.shape hq
    cases hshape with
    | quot hitems =>
      rcases hitems with _ | _
      · exact .applied (.cons (hR.bool _) .nil) h
      · exact .applied (.cons (hR.bool _) .nil) h
    | _ => exact .fail (.notNullable hq) hall

theorem related_append (hR : Likeness R tag tag') (h : List.Forall₂ R values values') :
    (append values).Related R (append values') := by
  rcases h with _ | ⟨hb, _ | ⟨ha, h⟩⟩
  · exact .short .nil
  · simp only [append]
    exact .short (.cons hb .nil)
  · have hall := List.Forall₂.cons hb (.cons ha h)
    have hupper := hR.shape hb
    cases hupper with
    | quot hys =>
      have hlower := hR.shape ha
      cases hlower with
      | quot hxs => exact .applied (.cons (hR.quot (List.rel_append hxs hys)) .nil) h
      | _ => exact .fail (.unexpected _ _ ha) hall
    | _ => exact .fail (.unexpected _ _ hb) hall

/-- Here the texts are looked at. -/
theorem related_display (hR : Likeness R tag tag')
    (htext : ∀ {e e' : Expr ν τ}, R e e' → e'.render = e.render)
    (h : List.Forall₂ R values values') : (display values).Related R (display values') := by
  rcases h with _ | ⟨he, h⟩
  · exact .short .nil
  · simp only [display, htext he]
    split
    · exact .applied (.cons (hR.text _) .nil) h
    · exact .failed (.breakdown _)

theorem related_kind (hR : Likeness R tag tag') (h : List.Forall₂ R values values') :
    (kind values).Related R (kind values') := by
  rcases h with _ | ⟨he, h⟩
  · exact .short .nil
  · simp only [kind, hR.kind_eq he]
    exact .applied (.cons (hR.text _) .nil) (.cons he h)

theorem related_dip (hR : Likeness R tag tag') (h : List.Forall₂ R values values') :
    (dip values).Related R (dip values') := by
  rcases h with _ | ⟨hq, _ | ⟨he, h⟩⟩
  · exact .short .nil
  · simp only [dip]
    exact .short (.cons hq .nil)
  · have hall := List.Forall₂.cons hq (.cons he h)
    have hshape := hR.shape hq
    cases hshape with
    | quot hitems => exact .applied (.cons he hitems) h
    | _ => exact .fail (.unexpected _ _ hq) hall

theorem related_dig (hR : Likeness R tag tag') (h : List.Forall₂ R values values') :
    (dig values).Related R (dig values') := by
  rcases h with _ | ⟨hn, _ | ⟨hq, h⟩⟩
  · exact .short .nil
  · simp only [dig]
    exact .short (.cons hn .nil)
  · have hall := List.Forall₂.cons hn (.cons hq h)
    have hnumber := hR.shape hn
    cases hnumber with
    | num depth =>
      have hquotation := hR.shape hq
      cases hquotation with
      | quot hitems =>
        simp only [dig]
        split
        · exact .fail (.negativeDepth _ _) hall
        · rcases take?_related h depth.toNat with
            ⟨hnone, hnone'⟩ | ⟨_, _, _, _, hcut, hcut', hsaved, hbelow⟩
          · rw [hnone, hnone']
            exact .short h
          · rw [hcut, hcut']
            exact .applied (List.rel_append hsaved hitems) hbelow
      | _ => exact .fail (.unexpected _ _ hq) hall
    | _ => exact .fail (.unexpected _ _ hn) hall

theorem related_apply (hR : Likeness R tag tag') (h : List.Forall₂ R values values') :
    (apply values).Related R (apply values') := by
  rcases h with _ | ⟨he, h⟩
  · exact .short .nil
  · have hall := List.Forall₂.cons he h
    have hshape := hR.shape he
    cases hshape with
    | quot hitems => exact .applied hitems h
    | native op own => exact .applied (.cons he .nil) h
    | _ => exact .fail (.notApplicable he) hall

theorem related_arith (hR : Likeness R tag tag') (f : Int → Int → Int)
    (h : List.Forall₂ R values values') : (arith f values).Related R (arith f values') := by
  rcases h with _ | ⟨ha, _ | ⟨hb, h⟩⟩
  · exact .deferred
  · simp only [arith]
    exact .deferred
  · cases hR.shape ha with
    | num x =>
      cases hR.shape hb with
      | num y => exact .applied (.cons (hR.num _) .nil) h
      | _ => exact .deferred
    | _ => exact .deferred

theorem related_division (hR : Likeness R tag tag') (op : Primitive) (f : Int → Int → Int)
    (h : List.Forall₂ R values values') :
    (division op f values).Related R (division op f values') := by
  rcases h with _ | ⟨ha, _ | ⟨hb, h⟩⟩
  · exact .deferred
  · simp only [division]
    exact .deferred
  · cases hR.shape ha with
    | num x =>
      cases hR.shape hb with
      | num y =>
        simp only [division]
        split
        · exact .fail (.divisionByZero _ _) (.cons (hR.num _) (.cons (hR.num _) h))
        · exact .applied (.cons (hR.num _) .nil) h
      | _ => exact .deferred
    | _ => exact .deferred

theorem related_croak (h : List.Forall₂ R values values') :
    (croak values).Related R (croak values') := by
  rcases h with _ | ⟨he, h⟩
  · exact .short .nil
  · exact .fail (.croaked he) h

theorem related_define (hR : Likeness R tag tag') (h : List.Forall₂ R values values') :
    (define tag values).Related R (define tag' values') := by
  rcases h with _ | ⟨hn, _ | ⟨hq, h⟩⟩
  · exact .short .nil
  · simp only [define]
    exact .short (.cons hn .nil)
  · have hall := List.Forall₂.cons hn (.cons hq h)
    have hword := hR.shape hn
    cases hword with
    | word name name' =>
      have hquotation := hR.shape hq
      cases hquotation with
      | quot hbody => exact .applied (.cons (hR.defn hn hbody) .nil) h
      | _ => exact .fail (.unexpected _ _ hq) hall
    | _ => exact .fail (.unexpected _ _ hn) hall

end Action

namespace Primitive

/-- **A primitive treats alike what it cannot tell apart.** -/
theorem act_related {R : Expr ν τ → Expr ν τ → Prop} {tag tag' : τ}
    (hR : Expr.Likeness R tag tag') {op : Primitive}
    (htext : op = display → ∀ {e e' : Expr ν τ}, R e e' → e'.render = e.render)
    {values values' : Stack ν τ} (h : List.Forall₂ R values values') :
    (op.act tag values).Related R (op.act tag' values') := by
  cases op with
  | drop => exact Action.related_drop h
  | dup => exact Action.related_dup h
  | bury => exact Action.related_bury hR h
  | exhume => exact Action.related_exhume hR h
  | equal => exact Action.related_equal hR h
  | not => exact Action.related_not hR h
  | or => exact Action.related_or hR h
  | and => exact Action.related_and hR h
  | quote => exact Action.related_quote hR h
  | cons => exact Action.related_cons hR h
  | uncons => exact Action.related_uncons hR h
  | splitAt => exact Action.related_splitAt hR h
  | null => exact Action.related_null hR h
  | append => exact Action.related_append hR h
  | display => exact Action.related_display hR (htext rfl) h
  | kind => exact Action.related_kind hR h
  | dip => exact Action.related_dip hR h
  | dig => exact Action.related_dig hR h
  | apply => exact Action.related_apply hR h
  | add | sub | mul => exact Action.related_arith hR _ h
  | div | mod => exact Action.related_division hR _ _ h
  | croak => exact Action.related_croak h
  | define => exact Action.related_define hR h

end Primitive
end Leftward
