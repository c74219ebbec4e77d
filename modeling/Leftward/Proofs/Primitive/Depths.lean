import Leftward.Primitive.Action
import Leftward.Proofs.Expr.Written

/-!
# Depths — primitives that count

`bury`, `exhume` and `dig` go down the stack as far as a number on it says, and `splitAt` goes as
far into a quotation. The number is an integer like any other: negative, or larger than anything
that is there. A slice of a list exists for all of them, so nothing but the primitive's own look at
the number keeps it from leaving less than it took.

**A number is refused exactly if there is no such depth, and else every value is where it should
be** (`depth_decides`). The bounds are not the same. A value may be buried beneath everything, and a
quotation cut at its end, but a value that is exhumed has to be there.
-/

namespace Leftward

open Leftward.Expr

variable {ν τ : Type}

/-! ## Refusing -/

/-- The outcome is a refusal of the stack: a fault about its shape, with a message, that shows a
suffix of it. -/
def Outcome.Refuses (values : Stack ν τ) : Outcome ν τ → Prop
  | .failed (.fault ⟨cause, some found⟩) =>
    cause.category = .shapeMismatch ∧ (∃ text, cause.message = some text) ∧ found <:+ values
  | _ => False

namespace Action

variable {n : Int}

theorem refuses_negative (hn : Decimal.Brief n) (reach : Reach) (values : Stack ν τ) :
    (fail (.negativeDepth reach n) values).Refuses values := by
  obtain ⟨text, htext⟩ := Decimal.exists_write hn.lt
  exact ⟨rfl, ⟨_, by rw [Cause.message, htext]; rfl⟩, List.suffix_refl values⟩

theorem refuses_outside (hn : Decimal.Brief n) (length : Nat) (values : Stack ν τ) :
    (fail (.splitOutside length n) values).Refuses values := by
  obtain ⟨text, htext⟩ := Decimal.exists_write hn.lt
  exact ⟨rfl, ⟨_, by rw [Cause.message, htext]; rfl⟩, List.suffix_refl values⟩

/-- One value more than the number says may be missing, and that number can still be told. -/
theorem refuses_short (hn : Decimal.Brief n) {needed : Nat} (hneeded : needed ≤ n.natAbs + 1)
    (op : Primitive) {values found : Stack ν τ} (hfound : found <:+ values) :
    (short op needed found).Refuses values := by
  obtain ⟨text, htext⟩ := Decimal.exists_write (i := needed) (Nat.lt_of_le_of_lt hneeded hn.succ_lt)
  exact ⟨rfl, ⟨_, by rw [Cause.message, htext]; rfl⟩, hfound⟩

/-- Where a depth is looked for in the values beneath, it is refused if it is not there. -/
theorem refuses_depth (hn : Decimal.Brief n) (op : Primitive) (reach : Reach)
    {values rest : Stack ν τ} (hrest : rest <:+ values) (houtside : n < 0 ∨ rest.length < n)
    (found : List (Expr ν τ) → Stack ν τ → Outcome ν τ) :
    (if n < 0 then fail (.negativeDepth reach n) values
      else
        match Stack.take? n.toNat rest with
        | some (above, below) => found above below
        | none => short op n.toNat rest).Refuses values := by
  by_cases hnegative : n < 0
  · rw [if_pos hnegative]
    exact refuses_negative hn reach values
  · have hbeyond : ¬ n.toNat ≤ rest.length := by omega
    rw [if_neg hnegative, Stack.take?_eq, if_neg hbeyond]
    exact refuses_short hn (by omega) op hrest

end Action

namespace Primitive

/-- On the stack the primitive refuses if the condition holds. If it does not, the primitive fires,
with a base that is a suffix of the stack and with the result that is asked for. -/
def FiresUnless (op : Primitive) (tag : τ) (values : Stack ν τ) (outside : Prop)
    (result : List (Expr ν τ) → Stack ν τ → Prop) : Prop :=
  ((op.act tag values).Refuses values ↔ outside) ∧
    (¬ outside → ∃ front base, op.act tag values = .applied front base ∧ base <:+ values ∧
      result front base)

theorem firesUnless_of {op : Primitive} {tag : τ} {values : Stack ν τ} {outside : Prop}
    {result : List (Expr ν τ) → Stack ν τ → Prop}
    (hrefuses : outside → (op.act tag values).Refuses values)
    (hfires : ¬ outside → ∃ front base, op.act tag values = .applied front base ∧
      base <:+ values ∧ result front base) : op.FiresUnless tag values outside result := by
  refine ⟨⟨fun hrefused => Classical.byContradiction fun hinside => ?_, hrefuses⟩, hfires⟩
  obtain ⟨front, base, hact, -⟩ := hfires hinside
  rw [hact] at hrefused
  exact hrefused

/-! ## What they do at a depth -/

section Within

variable (tag : τ) (e : Expr ν τ) (items : List (Expr ν τ)) {n : Nat} {rest : Stack ν τ}

theorem act_bury_num (hn : n ≤ rest.length) :
    bury.act tag (num n :: e :: rest) = .applied (rest.take n ++ [e]) (rest.drop n) := by
  have hdepth : ¬ (n : Int) < 0 := Int.not_lt.mpr (Int.natCast_nonneg n)
  simp [act, Action.bury, Stack.take?_eq, hn, hdepth]

theorem act_exhume_num (hn : n < rest.length) :
    exhume.act tag (num n :: rest) = .applied (rest[n] :: rest.take n) (rest.drop (n + 1)) := by
  have hdepth : ¬ (n : Int) < 0 := Int.not_lt.mpr (Int.natCast_nonneg n)
  have hthere : rest.drop n = rest[n] :: rest.drop (n + 1) := List.drop_eq_getElem_cons hn
  simp only [act, Action.exhume, if_neg hdepth, Int.toNat_natCast, Stack.take?_eq,
    if_pos (Nat.le_of_lt hn), hthere]

/-- To bury a value beneath so many is to exchange it with all of them. -/
theorem act_bury_append (above below : Stack ν τ) :
    bury.act tag (num above.length :: e :: (above ++ below)) = .applied (above ++ [e]) below := by
  have hdepth : above.length ≤ (above ++ below).length := by simp
  rw [act_bury_num tag e hdepth, List.take_left, List.drop_left]

/-- To exhume a value from beneath so many is to exchange all of them with it. -/
theorem act_exhume_append (above below : Stack ν τ) :
    exhume.act tag (num above.length :: (above ++ e :: below)) = .applied (e :: above) below := by
  have hdepth : above.length < (above ++ e :: below).length := by simp
  have hthere : (above ++ e :: below)[above.length] = e := by simp
  have hbeneath : (above ++ e :: below).drop (above.length + 1) = below := by simp
  rw [act_exhume_num tag hdepth, hthere, List.take_left, hbeneath]

theorem act_splitAt_quot (hn : n ≤ items.length) :
    splitAt.act tag (num n :: quot items :: rest) =
      .applied [quot (items.take n), quot (items.drop n)] rest := by
  have hinside : ¬ ((n : Int) < 0 ∨ (items.length : Int) < n) := by omega
  simp only [act, Action.splitAt, if_neg hinside, Int.toNat_natCast]

theorem act_dig_quot (hn : n ≤ rest.length) :
    dig.act tag (num n :: quot items :: rest) = .applied (rest.take n ++ items) (rest.drop n) := by
  have hdepth : ¬ (n : Int) < 0 := Int.not_lt.mpr (Int.natCast_nonneg n)
  simp [act, Action.dig, Stack.take?_eq, hn, hdepth]

end Within

/-! ## What they refuse -/

section Outside

variable {n : Int} (tag : τ) (e : Expr ν τ) (items : List (Expr ν τ)) (rest : Stack ν τ)

theorem bury_refuses (hn : Decimal.Brief n) (houtside : n < 0 ∨ rest.length < n) :
    (bury.act tag (num n :: e :: rest)).Refuses (num n :: e :: rest) :=
  Action.refuses_depth hn .bury .bury ⟨[_, _], rfl⟩ houtside
    fun above below => .applied (above ++ [e]) below

theorem dig_refuses (hn : Decimal.Brief n) (houtside : n < 0 ∨ rest.length < n) :
    (dig.act tag (num n :: quot items :: rest)).Refuses (num n :: quot items :: rest) :=
  Action.refuses_depth hn .dig .dig ⟨[_, _], rfl⟩ houtside
    fun saved below => .applied (saved ++ items) below

theorem exhume_refuses (hn : Decimal.Brief n) (houtside : n < 0 ∨ rest.length ≤ n) :
    (exhume.act tag (num n :: rest)).Refuses (num n :: rest) := by
  simp only [act, Action.exhume]
  by_cases hnegative : n < 0
  · rw [if_pos hnegative]
    exact Action.refuses_negative hn .exhume _
  · rw [if_neg hnegative, Stack.take?_eq]
    have hshort : (Action.short .exhume (n.toNat + 1) rest).Refuses (num n :: rest) :=
      Action.refuses_short hn (by omega) .exhume (List.suffix_cons _ rest)
    by_cases hlength : n.toNat ≤ rest.length
    · -- As many values as the number says are there, and none beneath them.
      have hnothing : rest.drop n.toNat = [] := List.drop_eq_nil_of_le (by omega)
      rw [if_pos hlength, hnothing]
      exact hshort
    · rw [if_neg hlength]
      exact hshort

theorem splitAt_refuses (hn : Decimal.Brief n) (houtside : n < 0 ∨ items.length < n) :
    (splitAt.act tag (num n :: quot items :: rest)).Refuses (num n :: quot items :: rest) := by
  simp only [act, Action.splitAt, if_pos houtside]
  exact Action.refuses_outside hn items.length _

end Outside

/-! ## Exactly the depths that there are -/

/-- **Every number is either refused or counts.** `bury`, `exhume` and `dig` on a number of not too
many digits refuse the stack if it is negative or goes beyond the values beneath, and `splitAt` if
it goes beyond the items of the quotation. To bury a value beneath all others is not beyond them, to
exhume one from there is. Otherwise they fire: a value is buried beneath as many as the number says,
or brought up from beneath them; a quotation is cut behind as many items; as many values are saved
from a quotation. What is left to be read and what is left on the stack are together what there was,
with nothing lost and nothing doubled, and nothing that is left on the stack has been moved. -/
theorem depth_decides {n : Int} (hn : Decimal.Brief n) (tag : τ) (e : Expr ν τ)
    (items : List (Expr ν τ)) (rest : Stack ν τ) :
    bury.FiresUnless tag (num n :: e :: rest) (n < 0 ∨ rest.length < n) (fun front base =>
      front ++ base = rest.take n.toNat ++ [e] ++ rest.drop n.toNat ∧
        (front ++ base).Perm (e :: rest)) ∧
    exhume.FiresUnless tag (num n :: rest) (n < 0 ∨ rest.length ≤ n) (fun front base =>
      ∃ x, rest[n.toNat]? = some x ∧
        front ++ base = [x] ++ rest.take n.toNat ++ rest.drop (n.toNat + 1) ∧
        (front ++ base).Perm rest) ∧
    splitAt.FiresUnless tag (num n :: quot items :: rest) (n < 0 ∨ items.length < n)
      (fun front base => ∃ left right, front = [quot left, quot right] ∧ base = rest ∧
        left = items.take n.toNat ∧ right = items.drop n.toNat ∧ left ++ right = items) ∧
    dig.FiresUnless tag (num n :: quot items :: rest) (n < 0 ∨ rest.length < n) (fun front base =>
      front = rest.take n.toNat ++ items ∧ base = rest.drop n.toNat ∧
        (front ++ base).Perm (items ++ rest)) := by
  refine ⟨firesUnless_of (bury_refuses tag e rest hn) fun hinside => ?_,
    firesUnless_of (exhume_refuses tag rest hn) fun hinside => ?_,
    firesUnless_of (splitAt_refuses tag items rest hn) fun hinside => ?_,
    firesUnless_of (dig_refuses tag items rest hn) fun hinside => ?_⟩
  all_goals obtain ⟨k, rfl⟩ := Int.eq_ofNat_of_zero_le (show 0 ≤ n by omega)
  · have hmoved : (rest.take k ++ [e] ++ rest.drop k).Perm (e :: rest) := by
      have hmiddle : (rest.take k ++ e :: rest.drop k).Perm
          (e :: (rest.take k ++ rest.drop k)) := List.perm_middle
      rwa [List.take_append_drop, List.append_cons] at hmiddle
    exact ⟨_, _, act_bury_num tag e (by omega),
      (List.drop_suffix k rest).trans ⟨[_, _], rfl⟩, rfl, hmoved⟩
  · have hthere : k < rest.length := by omega
    have hmoved : ([rest[k]] ++ rest.take k ++ rest.drop (k + 1)).Perm rest := by
      have hmiddle : (rest.take k ++ rest[k] :: rest.drop (k + 1)).Perm
          (rest[k] :: (rest.take k ++ rest.drop (k + 1))) := List.perm_middle
      rw [← List.drop_eq_getElem_cons hthere, List.take_append_drop] at hmiddle
      exact hmiddle.symm
    exact ⟨_, _, act_exhume_num tag hthere,
      (List.drop_suffix (k + 1) rest).trans (List.suffix_cons _ rest), rest[k],
      List.getElem?_eq_getElem hthere, rfl, hmoved⟩
  · exact ⟨_, _, act_splitAt_quot tag items (by omega), ⟨[_, _], rfl⟩, _, _, rfl, rfl, rfl, rfl,
      List.take_append_drop k items⟩
  · have hsaved : (rest.take k ++ items ++ rest.drop k).Perm (items ++ rest) := by
      have hcommuted : (rest.take k ++ items).Perm (items ++ rest.take k) := List.perm_append_comm
      have hswapped := hcommuted.append_right (rest.drop k)
      rwa [List.append_assoc items, List.take_append_drop] at hswapped
    exact ⟨_, _, act_dig_quot tag items (by omega),
      (List.drop_suffix k rest).trans ⟨[_, _], rfl⟩, rfl, rfl, hsaved⟩

/-- Two values lie beneath: one more is buried under both, none is exhumed from there. -/
theorem depth_decides_two :
    Decimal.Brief 2 ∧
      (∃ front base, bury.act () [num 2, chr 'e', word "x", native drop ()] = .applied front base ∧
        front ++ base = [word "x", native drop (), chr 'e']) ∧
      (exhume.act () [num 2, word "x", native drop ()]).Refuses
        [num 2, word "x", native drop ()] := by
  have hbrief : Decimal.Brief 2 := by decide
  obtain ⟨⟨-, hburies⟩, ⟨hexhumes, -⟩, -⟩ :=
    depth_decides hbrief () (chr 'e') [] [word "x", native drop ()]
  obtain ⟨front, base, hact, -, hwhole, -⟩ := hburies (by decide)
  exact ⟨hbrief, ⟨front, base, hact, hwhole⟩, hexhumes.mpr (by decide)⟩

end Primitive
end Leftward
