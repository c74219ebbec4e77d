import Leftward.Proofs.Primitive.Faults
import Leftward.Proofs.Primitive.Materials

/-!
# Promises — what every primitive keeps on every stack

**A primitive fires and leaves a suffix of its stack, or it is arithmetic and declines, or it fails
with a fault that has a message** (`honours_of_writable`), on every stack whose numbers can be
written. What fires, fires in the same way with more beneath, and its front is made of what the
stack offers; the promises are put together in `promises_kept`.

One number escapes. `exhume` tells of one value more than the depth that it was given. Beneath the
largest number that can be written it finds a shape that does not match, and has no message for it
(`promises_broken_by_exhume`).
-/

namespace Leftward

variable {ν τ : Type}

/-- The answer is one that a native may give: it fired and left a suffix of the stack, or it
declined, or it failed with a fault that can be told. -/
def Outcome.Honours (values : Stack ν τ) : Outcome ν τ → Prop
  | .applied _ base => base <:+ values
  | .deferred => True
  | .failed (.fault fault) => ∃ text, fault.cause.message = some text
  | .failed (.breakdown _) | .malformed _ => False

/-- If the native asked for more values than there were, then for at most two, or for as many as the
depth on top of the stack, or in the case of `exhume` for one more. -/
def Outcome.Asks (op : Primitive) (values : Stack ν τ) : Outcome ν τ → Prop
  | .failed (.fault ⟨.tooFew _ needed _, _⟩) =>
    needed ≤ 2 ∨ ∃ depth below, values = .num depth :: below ∧
      (needed ≤ depth.natAbs ∨ op = .exhume ∧ needed = (depth + 1).natAbs)
  | _ => True

namespace Primitive

section Asking

variable {op lacking : Primitive} {values found : Stack ν τ}

theorem asks_few {needed : Nat} (h : needed ≤ 2) :
    (Action.short lacking needed found).Asks op values := .inl h

theorem asks_depth {depth : Int} {needed : Nat} {below : Stack ν τ} (h : needed ≤ depth.natAbs) :
    (Action.short lacking needed found).Asks op (.num depth :: below) :=
  .inr ⟨depth, below, rfl, .inl h⟩

theorem asks_beyond {depth : Int} {needed : Nat} {below : Stack ν τ}
    (h : needed = (depth + 1).natAbs) :
    (Action.short lacking needed found).Asks exhume (.num depth :: below) :=
  .inr ⟨depth, below, rfl, .inr ⟨rfl, h⟩⟩

end Asking

theorem act_asks (op : Primitive) (tag : τ) (values : Stack ν τ) :
    (op.act tag values).Asks op values := by
  cases op with
  | bury =>
    simp only [act]
    fun_cases Action.bury values with
    | case3 depth e rest _ _ => exact asks_depth (by omega)
    | case5 => exact asks_few (by omega)
    | _ => trivial
  | exhume =>
    simp only [act]
    fun_cases Action.exhume values with
    | case3 depth rest _ _ => exact asks_beyond (by omega)
    | case5 => exact asks_few (by omega)
    | _ => trivial
  | dig =>
    simp only [act]
    fun_cases Action.dig values with
    | case3 depth items rest _ _ => exact asks_depth (by omega)
    | case6 => exact asks_few (by omega)
    | _ => trivial
  -- The match is on the stack and on something else, a verdict, a text or a range.
  | equal =>
    simp only [act]
    fun_cases Action.equal values <;> first | trivial | exact asks_few (by omega)
  | display =>
    simp only [act]
    fun_cases Action.display values <;> first | trivial | exact asks_few (by omega)
  | splitAt =>
    simp only [act]
    fun_cases Action.splitAt values <;> first | trivial | exact asks_few (by omega)
  | add | sub | mul =>
    simp only [act]
    fun_cases Action.arith _ values <;> trivial
  | div | mod =>
    simp only [act]
    fun_cases Action.division _ _ values <;> trivial
  -- The others lack one value or two, or blame one that they match on.
  | drop | dup | not | or | and | quote | cons | uncons | null | append | kind | dip | apply | croak
  | define =>
    simp only [act, Action.drop, Action.dup, Action.not, Action.or, Action.and, Action.quote,
      Action.cons, Action.uncons, Action.null, Action.append, Action.kind, Action.dip, Action.apply,
      Action.croak, Action.define]
    split <;> first | trivial | exact asks_few (by omega)

variable {op : Primitive} {values : Stack ν τ}

/-- **Every primitive answers as a native may**, if the numbers on its stack can be written, and for
`exhume` also the one after the depth. -/
theorem honours_of_writable (tag : τ) (hwritable : ∀ e ∈ values, e.Everywhere Expr.Writable)
    (hnext : op = exhume → ∀ depth below, values = .num depth :: below →
      (depth + 1).natAbs < Decimal.tooLarge) : (op.act tag values).Honours values := by
  have hasks := op.act_asks tag values
  have hblames := op.act_blames tag values
  cases hact : op.act tag values with
  | applied front base => exact act_suffix hact
  | deferred => trivial
  | malformed shown => exact absurd hact act_ne_malformed
  | failed failure =>
    rw [hact] at hasks hblames
    rcases failure with ⟨cause, _ | found⟩ | breakdown
    · obtain ⟨refusal, rfl⟩ := hblames
      cases refusal <;> exact ⟨_, rfl⟩
    · refine hblames.1.exists_message hwritable ?_
      rintro lacking needed count rfl
      rcases hasks with hfew | ⟨depth, below, hvalues, hdepth | ⟨hop, hbeyond⟩⟩
      · have htwo : Decimal.Brief 2 := by decide
        exact Nat.lt_of_le_of_lt hfew htwo.lt
      · have hwritten : (Expr.num depth : Expr ν τ).Writable :=
          (hwritable _ (by simp [hvalues])).self
        exact Nat.lt_of_le_of_lt hdepth hwritten
      · exact hbeyond ▸ hnext hop depth below hvalues
    -- A text is missing only of a value that has a number in it that cannot be written.
    · obtain ⟨-, e, he, hnone⟩ := hblames
      obtain ⟨text, htext⟩ := Expr.exists_render (hwritable e he)
      rw [hnone] at htext
      cases htext

/-- **Every primitive keeps what the machine relies on, on every stack.** Its answer is one that a
native may give, if the numbers on the stack can be written, and for `exhume` also the one after the
depth. Only arithmetic declines. What fires does the same on every larger stack, and its front holds
what lay on the stack, items of quotations there, and new truth values, numbers, quotations and
definitions. A word or a native in it, at whatever depth, lay on the stack before. -/
theorem promises_kept (op : Primitive) (tag : τ) (values : Stack ν τ) :
    ((∀ e ∈ values, e.Everywhere Expr.Writable) →
      (op = exhume → ∀ depth below, values = .num depth :: below →
        (depth + 1).natAbs < Decimal.tooLarge) →
      (op.act tag values).Honours values) ∧
    (op.act tag values = .deferred → op ∈ [add, sub, mul, div, mod]) ∧
    ∀ front base, op.act tag values = .applied front base →
      base <:+ values ∧
      (∀ more, op.act tag (values ++ more) = .applied front (base ++ more)) ∧
      (∀ e ∈ front, (e ∈ values ∨ ∃ items, .quot items ∈ values ∧ e ∈ items) ∨
        e.kind ∈ [.boolean, .number, .quotation, .definition]) ∧
      ∀ e ∈ front, ∀ x, Expr.Inside x e → x.kind ∈ [.word, .function] →
        ∃ v ∈ values, Expr.Inside x v := by
  refine ⟨honours_of_writable tag, fun h => (act_eq_deferred_iff.mp h).1, ?_⟩
  intro front base hact
  have hmade : ∀ e ∈ front, e.MadeOf values := by
    have hdraws := op.act_draws tag values
    rwa [hact] at hdraws
  refine ⟨act_suffix hact, act_append hact, fun e he => (hmade e he).kind_mem, ?_⟩
  exact fun e he x hx hkind => (hmade e he).inside hx hkind

/-- `exhume` brings up a native from under a word, and all that it promises is kept. -/
theorem promises_kept_exhume :
    (∀ e ∈ [(.num 1 : Expr Primitive Unit), .word "x", .native .dup ()],
      e.Everywhere Expr.Writable) ∧
    (exhume.act () [(.num 1 : Expr Primitive Unit), .word "x", .native .dup ()]).Honours
      [.num 1, .word "x", .native .dup ()] ∧
    exhume.act () [(.num 1 : Expr Primitive Unit), .word "x", .native .dup ()] =
      .applied [.native .dup (), .word "x"] [] := by
  have htwo : Decimal.Brief 2 := by decide
  have hone : Decimal.Brief 1 := by decide
  have hwritable : ∀ e ∈ [(.num 1 : Expr Primitive Unit), .word "x", .native .dup ()],
      e.Everywhere Expr.Writable := by
    simp only [List.forall_mem_cons]
    exact ⟨(Expr.everywhere_leaf rfl).mpr hone.lt, (Expr.everywhere_leaf rfl).mpr trivial,
      (Expr.everywhere_leaf rfl).mpr trivial, List.forall_mem_nil _⟩
  refine ⟨hwritable, (promises_kept exhume () _).1 hwritable ?_, rfl⟩
  rintro - depth below heq
  cases heq
  exact htwo.lt

/-- On the largest number that can be written, alone, `exhume` finds a shape that does not match,
but cannot tell of it: it lacks one value more. At the same depth `bury` and `dig` can. -/
theorem promises_broken_by_exhume :
    let values : Stack Primitive Unit := [.num (Decimal.tooLarge - 1 : Nat)]
    (∀ e ∈ values, e.Everywhere Expr.Writable) ∧
    ¬ (exhume.act () values).Honours values ∧
    (∃ fault, exhume.act () values = .failed (.fault fault) ∧
      fault.cause.category = .shapeMismatch ∧ fault.cause.message = none) ∧
    ∀ op ∈ [bury, dig],
      (op.act () (values ++ [.quot []])).Honours (values ++ [.quot []]) := by
  have htwo : Decimal.Brief 2 := by decide
  have hlarge : 2 < Decimal.tooLarge := htwo.lt
  obtain ⟨n, hn⟩ : ∃ n, n = Decimal.tooLarge - 1 := ⟨_, rfl⟩
  rw [← hn]
  have hwritable : (.num (n : Int) : Expr Primitive Unit).Everywhere Expr.Writable :=
    (Expr.everywhere_leaf rfl).mpr (show n < Decimal.tooLarge by omega)
  have hall : ∀ e ∈ [(.num n : Expr Primitive Unit)], e.Everywhere Expr.Writable :=
    List.forall_mem_singleton.mpr hwritable
  have hdepth : ¬ (n : Int) < 0 := Int.not_lt.mpr (Int.natCast_nonneg n)
  have hlack : exhume.act () [(.num n : Expr Primitive Unit)] =
      Action.short .exhume (n + 1) [] := by
    have hnone : ¬ n ≤ 0 := by omega
    simp only [act, Action.exhume, if_neg hdepth, Int.toNat_natCast, Stack.take?_eq,
      List.length_nil, if_neg hnone]
  have hnone : (.tooFew .exhume (n + 1) 0 : Cause Primitive Unit).message = none := by
    refine Option.eq_none_iff_forall_ne_some.mpr fun text htext => ?_
    rw [Cause.message] at htext
    obtain ⟨shown, hshown, -⟩ := Option.bind_eq_some_iff.mp htext
    have hshort : n + 1 < Decimal.tooLarge := Decimal.lt_of_write hshown
    omega
  refine ⟨hall, ?_, ⟨_, hlack, rfl, hnone⟩, fun op hop => ?_⟩
  · rw [hlack]
    rintro ⟨text, htext⟩
    cases hnone.symm.trans htext
  · have hempty : (.quot [] : Expr Primitive Unit).Everywhere Expr.Writable :=
      Expr.everywhere_quot.mpr ⟨trivial, List.forall_mem_nil _⟩
    have hboth : ∀ e ∈ [(.num n : Expr Primitive Unit), .quot []], e.Everywhere Expr.Writable :=
      List.forall_mem_cons.mpr ⟨hwritable, List.forall_mem_singleton.mpr hempty⟩
    refine honours_of_writable () hboth fun hexhume => ?_
    subst hexhume
    simp at hop

end Primitive
end Leftward
