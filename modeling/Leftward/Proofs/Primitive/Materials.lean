import Leftward.Proofs.Primitive.Frame

/-!
# Materials — what a front is made of

A primitive that fires puts expressions into its front, which are then read. They do not come from
nowhere: **each of them lay on the stack, or in a quotation there, or is newly made of such
expressions** (`act_draws`). What can be new are truth values, numbers, quotations and definitions.
A word or a native is never new, and so whatever word or native is read, at whatever depth it lies,
has been on the stack before (`MadeOf.inside`).
-/

namespace Leftward

open Leftward.Expr

variable {ν τ : Type}

/-- The expression lies on the stack, or is an item of a quotation that does. -/
def Stack.Offers (values : Stack ν τ) (e : Expr ν τ) : Prop :=
  e ∈ values ∨ ∃ items, quot items ∈ values ∧ e ∈ items

namespace Expr

/-- The first expression is the second or lies in it, in a body or elsewhere. -/
inductive Inside : Expr ν τ → Expr ν τ → Prop where
  | whole {e : Expr ν τ} : Inside e e
  | item {x e : Expr ν τ} {items : List (Expr ν τ)} : e ∈ items → Inside x e → Inside x (quot items)
  | first {x a b : Expr ν τ} : Inside x a → Inside x (pair a b)
  | second {x a b : Expr ν τ} : Inside x b → Inside x (pair a b)
  | body {x e : Expr ν τ} {name : String} {body : List (Expr ν τ)} {tag : τ} :
      e ∈ body → Inside x e → Inside x (defn name body tag)

/-- The expression is one that the stack offers, or a new one made of those. -/
inductive MadeOf (values : Stack ν τ) : Expr ν τ → Prop where
  | offered {e : Expr ν τ} : values.Offers e → MadeOf values e
  | truth (b : Bool) : MadeOf values (bool b)
  | number (n : Int) : MadeOf values (num n)
  | string (text : String) : MadeOf values (ofText text)
  | quotation {items : List (Expr ν τ)} :
      (∀ e ∈ items, values.Offers e) → MadeOf values (quot items)
  | definition {name : String} {body : List (Expr ν τ)} (tag : τ) :
      word name ∈ values → quot body ∈ values → MadeOf values (defn name body tag)

namespace MadeOf

variable {values : Stack ν τ} {e x : Expr ν τ} {items : List (Expr ν τ)}

theorem of_mem (h : e ∈ values) : MadeOf values e := .offered (.inl h)

theorem of_item (hq : quot items ∈ values) (h : e ∈ items) : MadeOf values e :=
  .offered (.inr ⟨items, hq, h⟩)

/-- Some of the items of a quotation, as a quotation of their own. -/
theorem of_items {some : List (Expr ν τ)} (hq : quot items ∈ values) (h : some ⊆ items) :
    MadeOf values (quot some) :=
  .quotation fun _ he => .inr ⟨items, hq, h he⟩

/-- What is new is of one of four kinds. -/
theorem kind_mem (h : MadeOf values e) :
    values.Offers e ∨ e.kind ∈ [.boolean, .number, .quotation, .definition] := by
  cases h with
  | offered h => exact .inl h
  | truth | number | string | quotation | definition => exact .inr (by simp [kind, ofText])

end MadeOf
end Expr

theorem Stack.Offers.inside {values : Stack ν τ} {e x : Expr ν τ} (h : values.Offers e)
    (hx : x.Inside e) : ∃ v ∈ values, x.Inside v := by
  rcases h with h | ⟨items, hq, h⟩
  · exact ⟨e, h, hx⟩
  · exact ⟨quot items, hq, .item h hx⟩

/-- **Words and natives are never new**, at whatever depth they lie. -/
theorem Expr.MadeOf.inside {values : Stack ν τ} {e x : Expr ν τ} (h : e.MadeOf values)
    (hx : x.Inside e) (hkind : x.kind ∈ [.word, .function]) : ∃ v ∈ values, x.Inside v := by
  cases h with
  | offered h => exact h.inside hx
  | truth | number =>
    cases hx
    simp [Expr.kind] at hkind
  | string text =>
    cases hx with
    | whole => simp [Expr.kind, ofText] at hkind
    | item he hx =>
      obtain ⟨c, -, rfl⟩ := List.mem_map.mp he
      cases hx
      simp [Expr.kind] at hkind
  | quotation hitems =>
    cases hx with
    | whole => simp [Expr.kind] at hkind
    | item he hx => exact (hitems _ he).inside hx
  | definition tag hname hbody =>
    cases hx with
    | whole => simp [Expr.kind] at hkind
    | body he hx => exact ⟨_, hbody, .item he hx⟩

/-- If the native fired, its front is made of what the stack offers. -/
def Outcome.Draws (values : Stack ν τ) : Outcome ν τ → Prop
  | .applied front _ => ∀ e ∈ front, e.MadeOf values
  | _ => True

@[simp] theorem Outcome.draws_applied {values base : Stack ν τ} {front : List (Expr ν τ)} :
    (Outcome.applied front base).Draws values ↔ ∀ e ∈ front, e.MadeOf values := Iff.rfl

namespace Action

open Leftward.Expr.MadeOf

/-! ## What is passed on -/

theorem draws_drop (values : Stack ν τ) : (drop values).Draws values := by
  fun_cases drop values with
  | case1 => exact List.forall_mem_nil _
  | case2 => trivial

theorem draws_dup (values : Stack ν τ) : (dup values).Draws values := by
  fun_cases dup values with
  | case1 e rest => simp [of_mem]
  | case2 => trivial

theorem draws_bury (values : Stack ν τ) : (bury values).Draws values := by
  fun_cases bury values with
  | case2 depth e rest _ above below htake =>
    rw [append_of_take? htake]
    intro x hx
    refine of_mem ?_
    simp only [List.mem_append, List.mem_cons, List.not_mem_nil, or_false] at hx ⊢
    grind
  | _ => trivial

theorem draws_exhume (values : Stack ν τ) : (exhume values).Draws values := by
  fun_cases exhume values with
  | case2 depth rest _ above e below htake =>
    rw [append_of_take? htake]
    intro x hx
    refine of_mem ?_
    simp only [List.mem_append, List.mem_cons] at hx ⊢
    grind
  | _ => trivial

theorem draws_or (values : Stack ν τ) : (or values).Draws values := by
  fun_cases or values with
  | case1 y x rest =>
    refine List.forall_mem_singleton.mpr (of_mem ?_)
    split <;> simp
  | case2 => trivial

theorem draws_and (values : Stack ν τ) : (and values).Draws values := by
  fun_cases and values with
  | case1 y x rest =>
    refine List.forall_mem_singleton.mpr (of_mem ?_)
    split <;> simp
  | case2 => trivial

theorem draws_dip (values : Stack ν τ) : (dip values).Draws values := by
  fun_cases dip values with
  | case1 items e rest =>
    have hq : quot items ∈ quot items :: e :: rest := by simp
    exact List.forall_mem_cons.mpr ⟨of_mem (by simp), fun x hx => of_item hq hx⟩
  | _ => trivial

theorem draws_dig (values : Stack ν τ) : (dig values).Draws values := by
  fun_cases dig values with
  | case2 depth items rest _ saved below htake =>
    rw [append_of_take? htake]
    intro x hx
    rcases List.mem_append.mp hx with hsaved | hitem
    · exact of_mem (by simp [hsaved])
    · exact of_item (by simp) hitem
  | _ => trivial

theorem draws_apply (values : Stack ν τ) : (apply values).Draws values := by
  fun_cases apply values with
  | case1 items rest =>
    have hq : quot items ∈ quot items :: rest := by simp
    exact fun x hx => of_item hq hx
  | case2 op tag rest => simp [of_mem]
  | _ => trivial

/-! ## What is new, whatever the stack offers -/

theorem draws_equal (values : Stack ν τ) : (equal values).Draws values := by
  fun_cases equal values with
  | case1 e f rest verdict => exact List.forall_mem_singleton.mpr (.truth verdict)
  | _ => trivial

theorem draws_not (values : Stack ν τ) : (not values).Draws values := by
  fun_cases not values with
  | case1 e rest => exact List.forall_mem_singleton.mpr (.truth _)
  | case2 => trivial

theorem draws_null (values : Stack ν τ) : (null values).Draws values := by
  fun_cases null values with
  | case1 items rest => exact List.forall_mem_singleton.mpr (.truth _)
  | _ => trivial

theorem draws_arith (f : Int → Int → Int) (values : Stack ν τ) : (arith f values).Draws values := by
  fun_cases arith f values with
  | case1 x y rest => exact List.forall_mem_singleton.mpr (.number _)
  | case2 => trivial

theorem draws_division (op : Primitive) (f : Int → Int → Int) (values : Stack ν τ) :
    (division op f values).Draws values := by
  fun_cases division op f values with
  | case2 x y rest => exact List.forall_mem_singleton.mpr (.number _)
  | _ => trivial

theorem draws_display (values : Stack ν τ) : (display values).Draws values := by
  fun_cases display values with
  | case1 e rest text => exact List.forall_mem_singleton.mpr (.string text)
  | _ => trivial

theorem draws_kind (values : Stack ν τ) : (kind values).Draws values := by
  fun_cases kind values with
  | case1 e rest => exact List.forall_mem_singleton.mpr (.string _)
  | case2 => trivial

/-! ## What is made of the stack -/

theorem draws_quote (values : Stack ν τ) : (quote values).Draws values := by
  fun_cases quote values with
  | case1 e rest =>
    have he : Stack.Offers (e :: rest) e := .inl (by simp)
    exact List.forall_mem_singleton.mpr (.quotation (List.forall_mem_singleton.mpr he))
  | case2 => trivial

theorem draws_cons (values : Stack ν τ) : (cons values).Draws values := by
  fun_cases cons values with
  | case1 e items rest =>
    refine List.forall_mem_singleton.mpr
      (.quotation (List.forall_mem_cons.mpr ⟨?_, fun x hx => ?_⟩))
    · exact .inl (by simp)
    · exact .inr ⟨items, by simp, hx⟩
  | _ => trivial

theorem draws_uncons (values : Stack ν τ) : (uncons values).Draws values := by
  fun_cases uncons values with
  | case1 e items rest =>
    have hq : quot (e :: items) ∈ quot (e :: items) :: rest := by simp
    refine List.forall_mem_cons.mpr ⟨of_item hq (by simp), ?_⟩
    exact List.forall_mem_singleton.mpr (of_items hq (List.subset_cons_self e items))
  | _ => trivial

theorem draws_splitAt (values : Stack ν τ) : (splitAt values).Draws values := by
  fun_cases splitAt values with
  | case2 index items below _ =>
    have hq : quot items ∈ num index :: quot items :: below := by simp
    refine List.forall_mem_cons.mpr ⟨of_items hq (List.take_subset _ items), ?_⟩
    exact List.forall_mem_singleton.mpr (of_items hq (List.drop_subset _ items))
  | _ => trivial

theorem draws_append (values : Stack ν τ) : (append values).Draws values := by
  fun_cases append values with
  | case1 b a rest =>
    refine List.forall_mem_singleton.mpr (.quotation fun x hx => ?_)
    rcases List.mem_append.mp hx with ha | hb
    · exact .inr ⟨a, by simp, ha⟩
    · exact .inr ⟨b, by simp, hb⟩
  | _ => trivial

theorem draws_croak (values : Stack ν τ) : (croak values).Draws values := by
  fun_cases croak values <;> trivial

theorem draws_define (tag : τ) (values : Stack ν τ) : (define tag values).Draws values := by
  fun_cases define tag values with
  | case1 name body rest =>
    exact List.forall_mem_singleton.mpr (.definition tag (by simp) (by simp))
  | _ => trivial

end Action

namespace Primitive

/-- **What a primitive puts into its front is made of what the stack offers.** -/
theorem act_draws (op : Primitive) (tag : τ) (values : Stack ν τ) :
    (op.act tag values).Draws values := by
  cases op with
  | drop => exact Action.draws_drop values
  | dup => exact Action.draws_dup values
  | bury => exact Action.draws_bury values
  | exhume => exact Action.draws_exhume values
  | equal => exact Action.draws_equal values
  | not => exact Action.draws_not values
  | or => exact Action.draws_or values
  | and => exact Action.draws_and values
  | quote => exact Action.draws_quote values
  | cons => exact Action.draws_cons values
  | uncons => exact Action.draws_uncons values
  | splitAt => exact Action.draws_splitAt values
  | null => exact Action.draws_null values
  | append => exact Action.draws_append values
  | display => exact Action.draws_display values
  | kind => exact Action.draws_kind values
  | dip => exact Action.draws_dip values
  | dig => exact Action.draws_dig values
  | apply => exact Action.draws_apply values
  | add | sub | mul => exact Action.draws_arith _ values
  | div | mod => exact Action.draws_division _ _ values
  | croak => exact Action.draws_croak values
  | define => exact Action.draws_define tag values

end Primitive
end Leftward
