import Leftward.Primitive.Action
import Leftward.Proofs.Machine.Normal

/-!
# The contract of the primitives

What the machine relies on, the primitives keep: **a primitive that fires leaves a suffix of its
stack, only arithmetic declines, and nothing answers with what is no outcome** (`act_settles`,
`act_eq_deferred_iff`). Whether arithmetic declines is for the two values on top to say. So a host
of primitives is lawful whatever tags it hands out (`lawful_hostWith`): a tag goes into the
definition that `def` makes and nowhere else.
-/

namespace Leftward

variable {ν τ : Type}

theorem suffix_of_take? {n : Nat} {values above below : Stack ν τ}
    (h : Stack.take? n values = some (above, below)) : below <:+ values := by
  rw [Stack.take?_eq] at h
  split at h
  · cases h
    exact List.drop_suffix n values
  · cases h

theorem append_of_take? {n : Nat} {values above below : Stack ν τ}
    (h : Stack.take? n values = some (above, below)) : values = above ++ below := by
  rw [Stack.take?_eq] at h
  split at h
  · cases h
    exact (List.take_append_drop n values).symm
  · cases h

/-- An answer that is final: the native fired and left a suffix of the stack, or it failed. -/
def Outcome.Settles (values : Stack ν τ) : Outcome ν τ → Prop
  | .applied _ base => base <:+ values
  | .failed _ => True
  | .deferred | .malformed _ => False

@[simp] theorem Outcome.settles_applied {values base : Stack ν τ} {front : List (Expr ν τ)} :
    (Outcome.applied front base).Settles values ↔ base <:+ values := Iff.rfl

@[simp] theorem Outcome.settles_failed {values : Stack ν τ} {failure : Failure ν τ} :
    (Outcome.failed failure).Settles values := trivial

namespace Action

@[simp] theorem settles_fail {values found : Stack ν τ} {cause : Cause ν τ} :
    (fail cause found).Settles values := trivial

@[simp] theorem settles_short {values found : Stack ν τ} {op : Primitive} {needed : Nat} :
    (short op needed found).Settles values := trivial

/-! ## The operations that reach into the stack -/

theorem settles_bury (values : Stack ν τ) : (bury values).Settles values := by
  fun_cases bury values with
  | case2 depth e rest _ above below ht => exact (suffix_of_take? ht).trans ⟨[_, _], rfl⟩
  | _ => trivial

theorem settles_exhume (values : Stack ν τ) : (exhume values).Settles values := by
  fun_cases exhume values with
  | case2 depth rest _ above e below ht =>
    exact ((List.suffix_cons e below).trans (suffix_of_take? ht)).trans (List.suffix_cons _ rest)
  | _ => trivial

theorem settles_dig (values : Stack ν τ) : (dig values).Settles values := by
  fun_cases dig values with
  | case2 depth items rest _ saved below ht => exact (suffix_of_take? ht).trans ⟨[_, _], rfl⟩
  | _ => trivial

/-! ## Arithmetic -/

/-- Two numbers on top of a stack, which is all that arithmetic looks for. -/
def TwoNumbers (values : Stack ν τ) : Prop := ∃ x y below, values = .num x :: .num y :: below

theorem arith_of_not_twoNumbers (f : Int → Int → Int) {values : Stack ν τ}
    (h : ¬ TwoNumbers values) : arith f values = .deferred := by
  unfold arith
  split
  · exact absurd ⟨_, _, _, rfl⟩ h
  · rfl

theorem division_of_not_twoNumbers (op : Primitive) (f : Int → Int → Int) {values : Stack ν τ}
    (h : ¬ TwoNumbers values) : division op f values = .deferred := by
  unfold division
  split
  · exact absurd ⟨_, _, _, rfl⟩ h
  · rfl

theorem settles_arith (f : Int → Int → Int) {values : Stack ν τ} (h : TwoNumbers values) :
    (arith f values).Settles values := by
  obtain ⟨x, y, below, rfl⟩ := h
  exact ⟨[_, _], rfl⟩

theorem settles_division (op : Primitive) (f : Int → Int → Int) {values : Stack ν τ}
    (h : TwoNumbers values) : (division op f values).Settles values := by
  obtain ⟨x, y, below, rfl⟩ := h
  simp only [division]
  split
  · trivial
  · exact ⟨[_, _], rfl⟩

end Action

namespace Primitive

/-! ## All of them -/

/-- The primitives that wait for their numbers. -/
def arithmetic : List Primitive := [add, sub, mul, div, mod]

/-- Arithmetic comes in two sorts: what is defined everywhere, and division. -/
theorem act_arithmetic {op : Primitive} (ho : op ∈ arithmetic) (tag : τ) :
    (∃ f, op.act (ν := ν) tag = Action.arith f) ∨
      ∃ f, op.act (ν := ν) tag = Action.division op f := by
  simp only [arithmetic, List.mem_cons, List.not_mem_nil, or_false] at ho
  rcases ho with rfl | rfl | rfl | rfl | rfl
  · exact .inl ⟨_, rfl⟩
  · exact .inl ⟨_, rfl⟩
  · exact .inl ⟨_, rfl⟩
  · exact .inr ⟨_, rfl⟩
  · exact .inr ⟨_, rfl⟩

/-- **Arithmetic declines without its two numbers, and nothing else declines.** In all other cases
a primitive fires, leaving a suffix of its stack, or fails. -/
theorem act_settles (op : Primitive) (tag : τ) (values : Stack ν τ) :
    (op.act tag values).Settles values ∨
      (op.act tag values = .deferred ∧ op ∈ arithmetic ∧ ¬ Action.TwoNumbers values) := by
  by_cases ho : op ∈ arithmetic
  · by_cases hv : Action.TwoNumbers values
    · left
      rcases act_arithmetic ho tag with ⟨f, hf⟩ | ⟨f, hf⟩
      · exact hf ▸ Action.settles_arith f hv
      · exact hf ▸ Action.settles_division op f hv
    · refine .inr ⟨?_, ho, hv⟩
      rcases act_arithmetic ho tag with ⟨f, hf⟩ | ⟨f, hf⟩
      · exact hf ▸ Action.arith_of_not_twoNumbers f hv
      · exact hf ▸ Action.division_of_not_twoNumbers op f hv
  · left
    cases op with
    | drop => simp only [act]; fun_cases Action.drop values <;> simp
    | dup => simp only [act]; fun_cases Action.dup values <;> simp
    | bury => exact Action.settles_bury values
    | exhume => exact Action.settles_exhume values
    | equal => simp only [act]; fun_cases Action.equal values <;> simp [List.suffix_cons_iff]
    | not => simp only [act]; fun_cases Action.not values <;> simp
    | or => simp only [act]; fun_cases Action.or values <;> simp [List.suffix_cons_iff]
    | and => simp only [act]; fun_cases Action.and values <;> simp [List.suffix_cons_iff]
    | quote => simp only [act]; fun_cases Action.quote values <;> simp
    | cons => simp only [act]; fun_cases Action.cons values <;> simp [List.suffix_cons_iff]
    | uncons => simp only [act]; fun_cases Action.uncons values <;> simp
    | splitAt => simp only [act]; fun_cases Action.splitAt values <;> simp [List.suffix_cons_iff]
    | null => simp only [act]; fun_cases Action.null values <;> simp
    | append => simp only [act]; fun_cases Action.append values <;> simp [List.suffix_cons_iff]
    | display => simp only [act]; fun_cases Action.display values <;> simp
    | kind => simp only [act]; fun_cases Action.kind values <;> simp
    | dip => simp only [act]; fun_cases Action.dip values <;> simp [List.suffix_cons_iff]
    | dig => exact Action.settles_dig values
    | apply => simp only [act]; fun_cases Action.apply values <;> simp
    | croak => simp only [act]; fun_cases Action.croak values <;> simp
    | define => simp only [act]; fun_cases Action.define tag values <;> simp [List.suffix_cons_iff]
    | add | sub | mul | div | mod => exact absurd (by decide) ho

theorem act_eq_deferred_iff {op : Primitive} {tag : τ} {values : Stack ν τ} :
    op.act tag values = .deferred ↔ op ∈ arithmetic ∧ ¬ Action.TwoNumbers values := by
  rcases act_settles op tag values with hs | hd
  · constructor
    · intro h
      rw [h] at hs
      exact hs.elim
    · intro h
      obtain ⟨ho, hv⟩ := h
      rcases act_arithmetic ho tag with ⟨f, hf⟩ | ⟨f, hf⟩
      · exact hf ▸ Action.arith_of_not_twoNumbers f hv
      · exact hf ▸ Action.division_of_not_twoNumbers op f hv
  · exact ⟨fun _ => hd.2, fun _ => hd.1⟩

theorem act_suffix {op : Primitive} {tag : τ} {values base : Stack ν τ} {front : List (Expr ν τ)}
    (h : op.act tag values = .applied front base) : base <:+ values := by
  rcases act_settles op tag values with hs | ⟨hd, _⟩
  · rwa [h] at hs
  · rw [h] at hd
    cases hd

theorem act_ne_malformed {op : Primitive} {tag : τ} {values : Stack ν τ} {shown : String} :
    op.act tag values ≠ .malformed shown := by
  intro h
  rcases act_settles op tag values with hs | ⟨hd, _⟩
  · rw [h] at hs
    exact hs
  · rw [h] at hd
    cases hd

/-! ## Hosts of primitives -/

/-- The host that supplies the primitives and nothing else, and hands out the given tags. -/
def hostWith (stamp : Nat → τ) : Host Primitive τ where
  name := name
  act := act
  stamp := stamp

theorem host_eq_hostWith : host = hostWith fun _ => () := rfl

theorem lawful_hostWith (stamp : Nat → τ) : (hostWith stamp).Lawful where
  declines h _ := act_eq_deferred_iff.mpr (act_eq_deferred_iff.mp h)
  suffix h := act_suffix h

/-- Where all tags are one, the primitives are functions of the stack. -/
theorem pure_host : host.Pure := fun _ _ _ _ => rfl

end Primitive
end Leftward
