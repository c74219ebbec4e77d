import Mathlib.Data.List.Forall2
import Leftward.Proofs.Expr.Comparison

/-!
# Laws of equality

The language and a host compare by one recursion and differ in the judge alone. **What holds of the
judge holds of the comparison**: if it does not matter to the judge in which order two things are
brought before it, it does not matter at any depth (`compare_comm`), and so for going on from what
agrees to what agrees with that (`compare_agreed_trans`). An expression agrees with itself if the
judge lets all its natives and definitions agree with themselves (`compare_self_iff`), and a judge
that refuses less answers the same wherever there was an answer (`compare_extends`).

Equality of the language is so identity on what holds neither natives nor definitions, and a host's
equality is an equivalence. A host also knows when two stacks have a cell in common and then looks
no further down. **That saves it work and never changes the answer** (`Chain.same_eq`), since what
it does not look at is the same.
-/

namespace Leftward

namespace Verdict

theorem orElse_eq_agreed {v w : Verdict} :
    orElse v w = .ok true ↔ v = .ok true ∧ w = .ok true := by
  constructor
  · exact both_of_orElse
  · intro h
    obtain ⟨rfl, rfl⟩ := h
    rfl

/-- The second verdict is the first, unless the first is that there is none. -/
def Extends (v w : Verdict) : Prop := ∀ answer, v = .ok answer → w = .ok answer

theorem Extends.orElse {v v' w w' : Verdict} (hv : Extends v v') (hw : Extends w w') :
    Extends (orElse v w) (orElse v' w') := by
  intro answer h
  by_cases hopen : decisive v = true
  · rw [orElse_of_decisive hopen] at h
    subst h
    rw [hv answer rfl, orElse_of_decisive hopen]
  · obtain rfl := eq_agreed_of_not_decisive hopen
    rw [hv true rfl]
    exact hw answer h

end Verdict

/-! ## Judges -/

namespace Judge

variable {τ : Type}

/-- It makes no difference which of two comes first. -/
structure Symmetric (judge : Judge τ) : Prop where
  functions : ∀ s t, judge.functions s t = judge.functions t s
  definitions : ∀ s t, judge.definitions s t = judge.definitions t s

/-- What agrees with what agrees with a third agrees with that. -/
structure Transitive (judge : Judge τ) : Prop where
  functions : ∀ {s t u}, judge.functions s t = .ok true → judge.functions t u = .ok true →
    judge.functions s u = .ok true
  definitions : ∀ {s t u}, judge.definitions s t = .ok true → judge.definitions t u = .ok true →
    judge.definitions s u = .ok true

/-- The other judge answers as this one does wherever this one answers. -/
structure Extends (judge other : Judge τ) : Prop where
  functions : ∀ s t, (judge.functions s t).Extends (other.functions s t)
  definitions : ∀ s t, (judge.definitions s t).Extends (other.definitions s t)

/-- The judge lets the expression agree with itself, if it is for the judge to say. -/
def Owns (judge : Judge τ) {ν : Type} : Expr ν τ → Prop
  | .native _ t => judge.functions t t = .ok true
  | .defn _ _ t => judge.definitions t t = .ok true
  | _ => True

theorem language_symmetric : (language : Judge τ).Symmetric := ⟨fun _ _ => rfl, fun _ _ => rfl⟩

variable [DecidableEq τ]

theorem identity_symmetric : (identity : Judge τ).Symmetric :=
  ⟨fun _ _ => congrArg Except.ok (decide_eq_decide.mpr eq_comm),
    fun _ _ => congrArg Except.ok (decide_eq_decide.mpr eq_comm)⟩

theorem identity_agreed_iff {s t : τ} : identity.functions s t = .ok true ↔ s = t := by
  rw [identity, Except.ok.injEq, decide_eq_true_iff]

theorem identity_transitive : (identity : Judge τ).Transitive := by
  have htrans {s t u : τ} (hst : identity.functions s t = .ok true)
      (htu : identity.functions t u = .ok true) : identity.functions s u = .ok true :=
    identity_agreed_iff.mpr ((identity_agreed_iff.mp hst).trans (identity_agreed_iff.mp htu))
  exact ⟨htrans, htrans⟩

theorem identity_owns {ν : Type} (e : Expr ν τ) : identity.Owns e := by
  cases e with
  | native op t => exact identity_agreed_iff.mpr rfl
  | defn name body t => exact identity_agreed_iff.mpr rfl
  | _ => trivial

/-- The language answers nothing that a host answers otherwise: it does not answer. -/
theorem language_extends_identity : (language : Judge τ).Extends identity :=
  ⟨fun _ _ _ h => (by cases h), fun _ _ _ h => (by cases h)⟩

end Judge

namespace Expr

variable {ν τ : Type} {judge : Judge τ}

/-! ## Leaves -/

theorem compare_leaf_left {x : Expr ν τ} (h : x.isLeaf = true) (y : Expr ν τ) :
    compare judge x y = compareLeaves judge x y := by
  cases x with
  | quot _ | pair _ _ => cases h
  | _ => cases y <;> rfl

theorem compare_leaf_right {y : Expr ν τ} (h : y.isLeaf = true) (x : Expr ν τ) :
    compare judge x y = compareLeaves judge x y := by
  cases y with
  | quot _ | pair _ _ => cases h
  | _ => cases x <;> rfl

theorem compareLeaves_comm (h : judge.Symmetric) (x y : Expr ν τ) :
    compareLeaves judge x y = compareLeaves judge y x := by
  cases x <;> cases y <;>
    first
    | rfl
    | exact h.functions _ _
    | exact h.definitions _ _
    | exact congrArg Except.ok (decide_eq_decide.mpr eq_comm)

/-- What agrees is one and the same, or it is for the judge to say. -/
theorem compareLeaves_eq_agreed {x y : Expr ν τ} (h : compareLeaves judge x y = .ok true) :
    x = y ∨
      (∃ f s g t, x = native f s ∧ y = native g t ∧ judge.functions s t = .ok true) ∨
      ∃ m b s n c t, x = defn m b s ∧ y = defn n c t ∧ judge.definitions s t = .ok true := by
  cases x with
  | native f s =>
    cases y with
    | native g t => exact .inr (.inl ⟨f, s, g, t, rfl, rfl, h⟩)
    | _ => cases h
  | defn m b s =>
    cases y with
    | defn n c t => exact .inr (.inr ⟨m, b, s, n, c, t, rfl, rfl, h⟩)
    | _ => cases h
  | _ => cases y <;> simp_all [compareLeaves]

theorem compareLeaves_self_iff {x : Expr ν τ} (hleaf : x.isLeaf = true) :
    compareLeaves judge x x = .ok true ↔ judge.Owns x := by
  cases x with
  | quot _ | pair _ _ => cases hleaf
  | native _ _ | defn _ _ _ => exact Iff.rfl
  | _ => simp [compareLeaves, Judge.Owns]

theorem compareLeaves_extends {other : Judge τ} (h : judge.Extends other) (x y : Expr ν τ) :
    (compareLeaves judge x y).Extends (compareLeaves other x y) := by
  cases x <;> cases y <;>
    first
    | exact h.functions _ _
    | exact h.definitions _ _
    | exact fun _ heq => heq

/-! ## What the judge passes on -/

theorem compareAll_comm {xs : List (Expr ν τ)}
    (h : ∀ x ∈ xs, ∀ y, compare judge x y = compare judge y x) (ys : List (Expr ν τ)) :
    compareAll judge xs ys = compareAll judge ys xs := by
  induction xs generalizing ys with
  | nil => cases ys <;> rfl
  | cons x xs ih =>
    cases ys with
    | nil => rfl
    | cons y ys =>
      have hxs := ih (fun e he => h e (List.mem_cons_of_mem x he)) ys
      rw [compareAll, compareAll, h x List.mem_cons_self y, hxs]

/-- **It makes no difference which of two expressions comes first**, if it makes none to the judge.
-/
theorem compare_comm (hj : judge.Symmetric) (x y : Expr ν τ) :
    compare judge x y = compare judge y x := by
  induction x using nested_induction generalizing y with
  | quotation xs ih =>
    cases y with
    | quot ys => exact compareAll_comm ih ys
    | _ => rfl
  | pair a b iha ihb =>
    cases y with
    | pair c d => rw [compare, compare, iha, ihb]
    | _ => rfl
  | leaf x hleaf =>
    rw [compare_leaf_left hleaf, compare_leaf_right hleaf, compareLeaves_comm hj]

theorem compareAll_agreed_trans {xs : List (Expr ν τ)}
    (h : ∀ x ∈ xs, ∀ y z, compare judge x y = .ok true → compare judge y z = .ok true →
      compare judge x z = .ok true) {ys zs : List (Expr ν τ)}
    (hxy : compareAll judge xs ys = .ok true) (hyz : compareAll judge ys zs = .ok true) :
    compareAll judge xs zs = .ok true := by
  induction xs generalizing ys zs with
  | nil =>
    cases ys with
    | nil => exact hyz
    | cons y ys => cases hxy
  | cons x xs ih =>
    cases ys with
    | nil => cases hxy
    | cons y ys =>
      cases zs with
      | nil => cases hyz
      | cons z zs =>
        rw [compareAll, Verdict.orElse_eq_agreed] at hxy hyz ⊢
        obtain ⟨hx, hxs⟩ := hxy
        obtain ⟨hy, hys⟩ := hyz
        exact ⟨h x List.mem_cons_self y z hx hy,
          ih (fun e he => h e (List.mem_cons_of_mem x he)) hxs hys⟩

/-- **Agreement goes on**, if the judge has it so. -/
theorem compare_agreed_trans (hj : judge.Transitive) {x y z : Expr ν τ}
    (hxy : compare judge x y = .ok true) (hyz : compare judge y z = .ok true) :
    compare judge x z = .ok true := by
  induction x using nested_induction generalizing y z with
  | quotation xs ih =>
    cases y with
    | quot ys =>
      cases z with
      | quot zs => exact compareAll_agreed_trans (fun x hx y z => ih x hx) hxy hyz
      | _ => cases hyz
    | _ => cases hxy
  | pair a b iha ihb =>
    cases y with
    | pair c d =>
      cases z with
      | pair e f =>
        rw [compare, Verdict.orElse_eq_agreed] at hxy hyz ⊢
        exact ⟨iha hxy.1 hyz.1, ihb hxy.2 hyz.2⟩
      | _ => cases hyz
    | _ => cases hxy
  | leaf x hleaf =>
    rw [compare_leaf_left hleaf] at hxy
    rcases compareLeaves_eq_agreed hxy with
      rfl | ⟨f, s, g, t, rfl, rfl, hst⟩ | ⟨m, b, s, n, c, t, rfl, rfl, hst⟩
    · exact hyz
    · cases z with
      | native k u => exact hj.functions hst hyz
      | _ => cases hyz
    · cases z with
      | defn k d u => exact hj.definitions hst hyz
      | _ => cases hyz

theorem compareAll_self_iff {xs : List (Expr ν τ)} :
    compareAll judge xs xs = .ok true ↔ ∀ x ∈ xs, compare judge x x = .ok true := by
  induction xs with
  | nil => simp [compareAll]
  | cons x xs ih => rw [compareAll, Verdict.orElse_eq_agreed, ih, List.forall_mem_cons]

/-- **An expression agrees with itself** if the judge has every native and definition in it do so.
-/
theorem compare_self_iff {x : Expr ν τ} :
    compare judge x x = .ok true ↔ Everywhere judge.Owns x := by
  induction x using nested_induction with
  | quotation xs ih =>
    have hxs : compare judge (quot xs) (quot xs) = compareAll judge xs xs := rfl
    rw [hxs, compareAll_self_iff, everywhere_quot]
    exact ⟨fun h => ⟨trivial, fun x hx => (ih x hx).mp (h x hx)⟩,
      fun h x hx => (ih x hx).mpr (h.2 x hx)⟩
  | pair a b iha ihb =>
    rw [compare, Verdict.orElse_eq_agreed, everywhere_pair, iha, ihb]
    exact ⟨fun h => ⟨trivial, h⟩, fun h => h.2⟩
  | leaf x hleaf =>
    rw [compare_leaf_left hleaf, compareLeaves_self_iff hleaf, everywhere_leaf hleaf]

theorem compareAll_extends {other : Judge τ} {xs : List (Expr ν τ)}
    (h : ∀ x ∈ xs, ∀ y, (compare judge x y).Extends (compare other x y)) (ys : List (Expr ν τ)) :
    (compareAll judge xs ys).Extends (compareAll other xs ys) := by
  induction xs generalizing ys with
  | nil => cases ys <;> exact fun _ heq => heq
  | cons x xs ih =>
    cases ys with
    | nil => exact fun _ heq => heq
    | cons y ys =>
      exact (h x List.mem_cons_self y).orElse (ih (fun e he => h e (List.mem_cons_of_mem x he)) ys)

/-- **Who refuses less answers the same** wherever there was an answer. -/
theorem compare_extends {other : Judge τ} (hj : judge.Extends other) (x y : Expr ν τ) :
    (compare judge x y).Extends (compare other x y) := by
  induction x using nested_induction generalizing y with
  | quotation xs ih =>
    cases y with
    | quot ys => exact compareAll_extends ih ys
    | _ => exact fun _ heq => heq
  | pair a b iha ihb =>
    cases y with
    | pair c d => exact (iha c).orElse (ihb d)
    | _ => exact fun _ heq => heq
  | leaf x hleaf =>
    rw [compare_leaf_left hleaf, compare_leaf_left hleaf]
    exact compareLeaves_extends hj x y

/-! ## The language and a host -/

/-- What the language compares: neither a native nor a definition. -/
def Comparable : Expr ν τ → Prop
  | native _ _ | defn _ _ _ => False
  | _ => True

theorem language_owns_iff {e : Expr ν τ} : Judge.language.Owns e ↔ Comparable e := by
  cases e with
  | native _ _ | defn _ _ _ => exact iff_false_intro fun h => (by cases h)
  | _ => exact Iff.rfl

theorem equals_eq_compare (x y : Expr ν τ) : x.equals y = compare .language x y := by
  rw [equals_eq_first, compare_eq_first]

theorem equals_self_iff {x : Expr ν τ} : x.equals x = .ok true ↔ Everywhere Comparable x := by
  rw [equals_eq_compare, compare_self_iff]
  exact ⟨Everywhere.imp fun _ => language_owns_iff.mp,
    Everywhere.imp fun _ => language_owns_iff.mpr⟩

/-- **The language says that two expressions are equal** if they are one and it can look at all of
it. -/
theorem equals_eq_agreed {x y : Expr ν τ} :
    x.equals y = .ok true ↔ x = y ∧ Everywhere Comparable x := by
  constructor
  · intro h
    obtain rfl := eq_of_compare (equals_eq_compare x y ▸ h)
    exact ⟨rfl, equals_self_iff.mp h⟩
  · intro h
    obtain ⟨rfl, hx⟩ := h
    exact equals_self_iff.mpr hx

section Identity

variable [DecidableEq τ]

theorem same_iff {x y : Expr ν τ} : x.same y = true ↔ compare .identity x y = .ok true := by
  rw [compare_identity_eq_same, Except.ok.injEq]

theorem same_of_equals {x y : Expr ν τ} {answer : Bool} (h : x.equals y = .ok answer) :
    x.same y = answer := by
  rw [equals_eq_compare] at h
  have hhost := compare_extends Judge.language_extends_identity x y answer h
  rwa [compare_identity_eq_same, Except.ok.injEq] at hhost

theorem same_refl (x : Expr ν τ) : x.same x = true :=
  same_iff.mpr (compare_self_iff.mpr fun e _ => Judge.identity_owns e)

theorem same_symm {x y : Expr ν τ} (h : x.same y = true) : y.same x = true := by
  rw [same_iff, compare_comm Judge.identity_symmetric]
  exact same_iff.mp h

theorem same_trans {x y z : Expr ν τ} (hxy : x.same y = true) (hyz : y.same z = true) :
    x.same z = true :=
  same_iff.mpr (compare_agreed_trans Judge.identity_transitive (same_iff.mp hxy) (same_iff.mp hyz))

end Identity

/-- **An expression is refused beside itself** if there is something in it that the language does
not compare. It is never unequal to itself. -/
theorem equals_self_eq_error {x : Expr ν τ} :
    (∃ refusal, x.equals x = .error refusal) ↔ ∃ e, Part e x ∧ ¬ Comparable e := by
  classical
  have hparts : (∃ e, Part e x ∧ ¬ Comparable e) ↔ ¬ x.equals x = .ok true := by
    rw [equals_self_iff, Everywhere]
    push Not
    rfl
  rw [hparts]
  constructor
  · intro h hagreed
    obtain ⟨refusal, hrefused⟩ := h
    rw [hrefused] at hagreed
    cases hagreed
  · intro hne
    cases hx : x.equals x with
    | error refusal => exact ⟨refusal, rfl⟩
    | ok answer =>
      rw [← same_of_equals hx, same_refl] at hx
      exact absurd hx hne

end Expr

/-! ## Stacks -/

namespace Stack

variable {ν τ : Type} [DecidableEq τ] {s t u : Stack ν τ}

theorem same_iff_forall₂ :
    Stack.same s t = true ↔ List.Forall₂ (fun x y => Expr.same x y = true) s t := by
  induction s generalizing t with
  | nil => cases t <;> simp [Stack.same]
  | cons x s ih =>
    cases t with
    | nil => simp [Stack.same]
    | cons y t => rw [Stack.same, Bool.and_eq_true, ih, List.forall₂_cons]

theorem same_refl (s : Stack ν τ) : Stack.same s s = true :=
  same_iff_forall₂.mpr (List.forall₂_same.mpr fun x _ => Expr.same_refl x)

theorem same_symm (h : Stack.same s t = true) : Stack.same t s = true :=
  same_iff_forall₂.mpr ((same_iff_forall₂.mp h).flip.imp fun _ _ => Expr.same_symm)

theorem same_trans (hst : Stack.same s t = true) (htu : Stack.same t u = true) :
    Stack.same s u = true := by
  induction s generalizing t u with
  | nil =>
    cases t with
    | nil => exact htu
    | cons y t => cases hst
  | cons x s ih =>
    cases t with
    | nil => cases hst
    | cons y t =>
      cases u with
      | nil => cases htu
      | cons z u =>
        rw [Stack.same, Bool.and_eq_true] at hst htu ⊢
        exact ⟨Expr.same_trans hst.1 htu.1, ih hst.2 htu.2⟩

end Stack

/-- A stack as it lies in memory: for each cell, where it is and what is in it. -/
abbrev Chain (α ν τ : Type) := List (α × Expr ν τ)

namespace Chain

variable {α ν τ : Type}

/-- The stack that lies there. -/
def values (s : Chain α ν τ) : Stack ν τ := s.map Prod.snd

/-- The two lie in one memory: what is at one place is one cell, with all that is beneath it. -/
def Together (s t : Chain α ν τ) : Prop :=
  ∀ ⦃place x y below below'⦄, (place, x) :: below <:+ s → (place, y) :: below' <:+ t →
    x = y ∧ below = below'

/-- Whether two stacks are the same, up to the first cell that they have in common. -/
def same [DecidableEq α] [DecidableEq τ] : Chain α ν τ → Chain α ν τ → Bool
  | (p, x) :: s, (q, y) :: t => if p = q then true else x.same y && Chain.same s t
  | [], [] => true
  | _, _ => false

/-- **Stopping at a common cell does not change the answer.** -/
theorem same_eq [DecidableEq α] [DecidableEq τ] {s t : Chain α ν τ} (h : Together s t) :
    s.same t = Stack.same s.values t.values := by
  induction s generalizing t with
  | nil => cases t <;> rfl
  | cons cell s ih =>
    obtain ⟨p, x⟩ := cell
    cases t with
    | nil => rfl
    | cons cell t =>
      obtain ⟨q, y⟩ := cell
      rw [Chain.same]
      by_cases hplace : p = q
      · subst hplace
        obtain ⟨rfl, rfl⟩ := h List.suffix_rfl List.suffix_rfl
        rw [if_pos rfl, Stack.same_refl]
      · have hbelow : Together s t := fun _ _ _ _ _ hs ht =>
          h (hs.trans (List.suffix_cons _ s)) (ht.trans (List.suffix_cons _ t))
        rw [if_neg hplace, ih hbelow]
        rfl

end Chain

/-- **The laws of equality.** Equality of the language does not depend on the order, refusals
included; it holds of what is one and the same and has neither natives nor definitions in it, and is
refused, of an expression and itself, if there are any; it goes on from equal to equal; and where it
is answered, a host's equality has the same answer. That one is an equivalence, on expressions and
on stacks, where it means as many values and each the same as the other; and to stop at the first
common cell makes no difference to it. -/
theorem equality_laws {ν τ : Type} :
    (∀ a b : Expr ν τ, a.equals b = b.equals a) ∧
    (∀ a b : Expr ν τ, a.equals b = .ok true ↔ a = b ∧ Expr.Everywhere Expr.Comparable a) ∧
    (∀ a : Expr ν τ, (∃ refusal, a.equals a = .error refusal) ↔
      ∃ e, Expr.Part e a ∧ ¬ Expr.Comparable e) ∧
    (∀ a b c : Expr ν τ, a.equals b = .ok true → b.equals c = .ok true → a.equals c = .ok true) ∧
    ∀ [DecidableEq τ],
      (∀ (a b : Expr ν τ) (answer : Bool), a.equals b = .ok answer → a.same b = answer) ∧
      (Equivalence fun a b : Expr ν τ => a.same b = true) ∧
      (∀ s t : Stack ν τ, Stack.same s t = true ↔ s.length = t.length ∧
        ∀ (i : Nat) (hs : i < s.length) (ht : i < t.length), s[i].same t[i] = true) ∧
      (∀ {α : Type} [DecidableEq α] (s t : Chain α ν τ), Chain.Together s t →
        s.same t = Stack.same s.values t.values) ∧
      Equivalence fun s t : Stack ν τ => Stack.same s t = true := by
  refine ⟨fun a b => ?_, fun a b => Expr.equals_eq_agreed,
    fun a => Expr.equals_self_eq_error, ?_, ?_⟩
  · rw [Expr.equals_eq_compare, Expr.equals_eq_compare, Expr.compare_comm Judge.language_symmetric]
  · intro a b c hab hbc
    obtain ⟨rfl, _⟩ := Expr.equals_eq_agreed.mp hab
    exact hbc
  · intro _
    refine ⟨fun a b answer => Expr.same_of_equals,
      ⟨Expr.same_refl, Expr.same_symm, Expr.same_trans⟩, fun s t => ?_, fun s t => Chain.same_eq,
      ⟨Stack.same_refl, Stack.same_symm, Stack.same_trans⟩⟩
    rw [Stack.same_iff_forall₂, List.forall₂_iff_get]
    rfl

/-- A string three times over, and two stacks that have come to lie on one native. -/
theorem equality_laws_common_cell :
    let text : Expr Unit Nat := .quot [.chr 'a']
    let low : Char × Expr Unit Nat := ('r', .native () 0)
    (text.equals text = .ok true ∧ text.same text = true) ∧
      Chain.Together [('p', .num 1), low] [('q', .num 1), low] ∧
      Chain.same [('p', .num 1), low] [('q', .num 1), low] =
        Stack.same [.num 1, .native () 0] [.num 1, .native () 0] := by
  intro text low
  obtain ⟨-, hagreed, -, htrans, hhost⟩ := equality_laws (ν := Unit) (τ := Nat)
  obtain ⟨hanswer, -, -, hchain, -⟩ := hhost
  have htext : text.equals text = .ok true := by
    have hchr : Expr.Everywhere Expr.Comparable (.chr 'a' : Expr Unit Nat) :=
      (Expr.everywhere_leaf rfl).mpr trivial
    refine (hagreed _ _).mpr ⟨rfl, Expr.everywhere_quot.mpr ⟨trivial, ?_⟩⟩
    exact List.forall_mem_singleton.mpr hchr
  have htogether : Chain.Together [('p', .num 1), low] [('q', .num 1), low] := by
    intro place x y below below' hs ht
    simp only [List.suffix_cons_iff, List.suffix_nil, List.cons.injEq, Prod.mk.injEq] at hs ht
    grind
  exact ⟨⟨htrans _ _ _ htext htext, hanswer _ _ _ htext⟩, htogether, hchain _ _ htogether⟩

end Leftward
