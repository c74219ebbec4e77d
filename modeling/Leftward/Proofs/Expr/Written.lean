import Leftward.Proofs.Expr.Spelling
import Leftward.Proofs.Text.Decimal

/-!
# What has a text

An integer of too many digits has no decimal text, and nothing that shows it has a text either.
**That is the only reason why an expression has none** (`exists_render`), so a stack whose numbers
are all short enough can be shown. What is shown of it is cut off behind a number of characters, and
up to there it is the whole text (`exists_preview`).

`Brief` asks for one digit less than a numeral may have. The machine sometimes tells a number that
is one more than a number on the stack, and that one may then be written too.
-/

namespace Leftward

namespace Decimal

/-- The integer has fewer digits than a numeral may have. -/
def Brief (i : Int) : Prop := i.natAbs.repr.length < maxDigits

instance (i : Int) : Decidable (Brief i) := inferInstanceAs (Decidable (_ < _))

theorem lt_pow_of_length_lt {n k : Nat} (h : n.repr.length < k) : n + 1 < Nat.pow 10 k := by
  cases k with
  | zero => exact absurd h (Nat.not_lt_zero _)
  | succ k =>
    have hpos : 0 < (Nat.toDigits 10 n).length := Nat.length_toDigits_pos
    have hdigits : (Nat.toDigits 10 n).length ≤ k := by
      rw [← Nat.toList_repr, String.length_toList]
      exact Nat.le_of_lt_succ h
    have hvalue : n < 10 ^ k := (Nat.length_toDigits_le_iff (by decide) (by omega)).mp hdigits
    have hpow : 10 ^ k < 10 ^ (k + 1) := Nat.pow_lt_pow_right (by decide) (Nat.lt_succ_self k)
    exact Nat.lt_of_le_of_lt hvalue hpow

/-- The integer after a brief one can still be written. -/
theorem Brief.succ_lt {i : Int} (h : Brief i) : i.natAbs + 1 < tooLarge := by
  unfold tooLarge
  exact lt_pow_of_length_lt h

theorem Brief.lt {i : Int} (h : Brief i) : i.natAbs < tooLarge :=
  Nat.lt_of_succ_lt h.succ_lt

theorem exists_write {i : Int} (h : i.natAbs < tooLarge) : ∃ text, write i = some text :=
  ⟨_, write_of_lt h⟩

theorem lt_of_write {i : Int} {text : String} (h : write i = some text) : i.natAbs < tooLarge := by
  unfold write at h
  split at h
  · assumption
  · cases h

end Decimal

namespace Expr

variable {ν τ : Type}

/-- The expression, if it is a number, has decimal text. -/
def Writable : Expr ν τ → Prop
  | num value => value.natAbs < Decimal.tooLarge
  | _ => True

/-- The expression, if it is a number, is a brief one. -/
def BriefNumber : Expr ν τ → Prop
  | num value => Decimal.Brief value
  | _ => True

/-- Every number in the expression is brief. -/
def Brief (e : Expr ν τ) : Prop := Everywhere BriefNumber e

theorem BriefNumber.writable {e : Expr ν τ} (h : BriefNumber e) : Writable e := by
  cases e with
  | num value => exact Decimal.Brief.lt h
  | _ => trivial

theorem Brief.writable {e : Expr ν τ} (h : Brief e) : Everywhere Writable e :=
  h.imp fun _ => BriefNumber.writable

theorem exists_leaf {e : Expr ν τ} (h : Writable e) : ∃ text, leaf e = some text := by
  cases e with
  | num value => exact Decimal.exists_write h
  | _ => exact ⟨_, rfl⟩

theorem exists_spellShown {items : List (Expr ν τ)} (h : ∀ e ∈ items, ∃ text, spell e = some text) :
    ∃ texts, spellShown items = some texts := by
  induction items with
  | nil => exact ⟨[], rfl⟩
  | cons e rest ih =>
    obtain ⟨text, htext⟩ := h e List.mem_cons_self
    obtain ⟨texts, htexts⟩ := ih fun x hx => h x (List.mem_cons_of_mem e hx)
    rw [spellShown]
    split
    · exact ⟨texts, htexts⟩
    · exact ⟨text :: texts, by rw [htext, htexts]; rfl⟩

/-- **What has no integer in it that is too large has a text.** -/
theorem exists_render {e : Expr ν τ} (h : Everywhere Writable e) :
    ∃ text, e.render = some text := by
  rw [render_eq_spell]
  induction e using nested_induction with
  | quotation items ih =>
    have hitems := (everywhere_quot.mp h).2
    obtain ⟨texts, htexts⟩ := exists_spellShown fun e he => ih e he (hitems e he)
    rw [spell]
    cases text? items with
    | some text => exact ⟨_, rfl⟩
    | none => exact ⟨_, by rw [htexts]; rfl⟩
  | pair a b iha ihb =>
    obtain ⟨-, ha, hb⟩ := everywhere_pair.mp h
    obtain ⟨s, hs⟩ := iha ha
    obtain ⟨t, ht⟩ := ihb hb
    exact ⟨_, by rw [spell, hs, ht]; rfl⟩
  | leaf e hleaf =>
    rw [spell_leaf hleaf]
    exact exists_leaf h.self

theorem writable_of_leaf {e : Expr ν τ} {text : String} (h : leaf e = some text) : Writable e := by
  cases e with
  | num value => exact Decimal.lt_of_write h
  | _ => trivial

theorem writable_of_spellShown {items : List (Expr ν τ)} {texts : List String}
    (ih : ∀ e ∈ items, ∀ text, spell e = some text → Everywhere Writable e)
    (h : spellShown items = some texts) : ∀ e ∈ items, Everywhere Writable e := by
  induction items generalizing texts with
  | nil => simp
  | cons e rest hrest =>
    have hothers := fun x hx => ih x (List.mem_cons_of_mem e hx)
    rw [spellShown] at h
    split at h
    · rename_i hcomment
      refine List.forall_mem_cons.mpr ⟨?_, hrest hothers h⟩
      cases e with
      | comment text => exact (everywhere_leaf rfl).mpr trivial
      | _ => cases hcomment
    · obtain ⟨text, htext, h⟩ := Option.bind_eq_some_iff.mp h
      obtain ⟨others, hshown, -⟩ := Option.map_eq_some_iff.mp h
      exact List.forall_mem_cons.mpr ⟨ih e List.mem_cons_self text htext, hrest hothers hshown⟩

/-- What has a text has no integer in it that is too large. -/
theorem writable_of_render {e : Expr ν τ} {text : String} (h : e.render = some text) :
    Everywhere Writable e := by
  rw [render_eq_spell] at h
  induction e using nested_induction generalizing text with
  | quotation items ih =>
    refine everywhere_quot.mpr ⟨trivial, ?_⟩
    rw [spell] at h
    cases htext : text? items with
    | some characters =>
      rw [text?_eq_some_iff.mp htext]
      intro e he
      obtain ⟨c, -, rfl⟩ := List.mem_map.mp he
      exact (everywhere_leaf rfl).mpr trivial
    | none =>
      simp only [htext] at h
      obtain ⟨texts, hshown, -⟩ := Option.map_eq_some_iff.mp h
      exact writable_of_spellShown (fun e he text => ih e he) hshown
  | pair a b iha ihb =>
    rw [spell] at h
    obtain ⟨s, hs, h⟩ := Option.bind_eq_some_iff.mp h
    obtain ⟨t, ht, -⟩ := Option.map_eq_some_iff.mp h
    exact everywhere_pair.mpr ⟨trivial, iha hs, ihb ht⟩
  | leaf e hleaf =>
    rw [spell_leaf hleaf] at h
    exact (everywhere_leaf hleaf).mpr (writable_of_leaf h)

/-- **An expression has a text exactly if no integer in it is too large.** -/
theorem exists_render_iff {e : Expr ν τ} :
    (∃ text, e.render = some text) ↔ Everywhere Writable e :=
  ⟨fun ⟨_, h⟩ => writable_of_render h, exists_render⟩

end Expr

namespace Stack

variable {ν τ : Type}

theorem exists_render_quot {values : Stack ν τ}
    (h : ∀ e ∈ values, Expr.Everywhere Expr.Writable e) :
    ∃ text, (Expr.quot values).render = some text :=
  Expr.exists_render (Expr.everywhere_quot.mpr ⟨trivial, h⟩)

/-- **A preview is the beginning of the whole text**, with three points behind it if it is not all
of it. -/
theorem exists_preview {values : Stack ν τ} {full : String}
    (h : (Expr.quot values).render = some full) (limit : Nat) :
    ∃ shown, Stack.preview limit values = some shown ∧ shown.length ≤ limit + 3 ∧
      shown.toList.take limit = full.toList.take limit := by
  rw [Stack.preview, h, Option.map_some]
  by_cases hlong : (full.length : Int) > limit
  · have hcut : Stack.cut limit full.toList = full.toList.take limit := by
      rw [Stack.cut, if_neg (Int.not_lt.mpr (Int.natCast_nonneg limit)), Int.toNat_natCast]
    have hlength : (full.toList.take limit).length = limit := by
      rw [List.length_take, String.length_toList]
      omega
    refine ⟨_, rfl, ?_, ?_⟩
    · rw [if_pos hlong, hcut, String.length_append, String.length_ofList, hlength]
      exact Nat.le_refl _
    · rw [if_pos hlong, hcut, String.toList_append, String.toList_ofList]
      rw [List.take_append_of_le_length (Nat.le_of_eq hlength.symm), List.take_take, Nat.min_self]
  · refine ⟨_, rfl, ?_, ?_⟩
    · rw [if_neg hlong]
      omega
    · rw [if_neg hlong]

end Stack
end Leftward
