import Leftward.Proofs.Grammar.Rules

/-!
# One reading only

**The rules derive at most one thing of a text** (`Derives.unique`): of two forms that both come
first each is the other, and each form says where it ends. The bounds do not change what that is,
they only decide whether there is anything (`Derives.mono`). A form that matches only because a
bound is larger cannot take the place of another, since nothing but words gives way to other forms
(`first_iff`), and those that words give way to have no bounds.
-/

namespace Leftward
namespace Grammar

open Text

variable {ν τ : Type} {digits : Nat} {inner : Option (Rule ν τ)} {form : Form}
  {cs rest : List Char} {e : Expr ν τ}

/-! ## More brackets and longer numerals -/

section Mono

theorem Sequence.imp {rule rule' : Rule ν τ} {es : List (Expr ν τ)}
    (hrule : ∀ {cs e rest}, rule cs e rest → rule' cs e rest) (h : Sequence rule cs es rest) :
    Sequence rule' cs es rest := by
  induction h with
  | nil => exact .nil
  | cons he _ ih => exact .cons (hrule he) ih

theorem Spaced.imp {rule rule' : Rule ν τ}
    (hrule : ∀ {cs e rest}, rule cs e rest → rule' cs e rest) (h : Spaced rule cs e rest) :
    Spaced rule' cs e rest := by
  obtain ⟨gap, behind, he, hgap⟩ := h
  exact ⟨gap, behind, hrule he, hgap⟩

theorem Matches.mono {digits' : Nat} {inner' : Option (Rule ν τ)} (hdigits : digits ≤ digits')
    (hinner : ∀ rule, inner = some rule →
      ∃ rule', inner' = some rule' ∧ ∀ {cs e rest}, rule cs e rest → rule' cs e rest)
    (h : Matches digits inner form cs e rest) : Matches digits' inner' form cs e rest := by
  cases h with
  | comment hl hb => exact .comment hl hb
  | boolean => exact .boolean
  | character => exact .character
  | number hne hr hlen => exact .number hne hr (Nat.le_trans hlen hdigits)
  | quotation hrule hgap hitems =>
    obtain ⟨rule', hrule', himp⟩ := hinner _ hrule
    exact .quotation hrule' hgap (hitems.imp himp)
  | pair hrule hgap ha hb =>
    obtain ⟨rule', hrule', himp⟩ := hinner _ hrule
    exact .pair hrule' hgap (himp ha) (himp hb)
  | string hd htext => exact .string hd htext
  | word hc hr => exact .word hc hr

/-- What the rules derive within some bounds they derive within all larger ones. -/
theorem DerivesTerm.mono {digits' depth depth' : Nat} (hdigits : digits ≤ digits')
    (hdepth : depth ≤ depth') (h : DerivesTerm digits depth cs e rest) :
    DerivesTerm digits' depth' cs e rest := by
  induction depth using Nat.strongRecOn generalizing depth' cs e rest with
  | ind depth ih =>
    obtain ⟨form, hmatch, hword⟩ := first_iff.mp (derivesTerm_iff.mp h)
    refine derivesTerm_iff.mpr (first_iff.mpr ⟨form, hmatch.mono hdigits ?_, hword⟩)
    intro rule hrule
    obtain ⟨less, rfl, rfl⟩ := inside_eq_some hrule
    cases depth' with
    | zero => exact absurd hdepth (Nat.not_succ_le_zero _)
    | succ less' =>
      exact ⟨_, rfl, fun hitem =>
        hitem.imp (ih less (Nat.lt_succ_self less) (Nat.le_of_succ_le_succ hdepth))⟩

theorem Derives.mono {digits' depth depth' : Nat} {text : List Char} {es : List (Expr ν τ)}
    (hdepth : depth ≤ depth') (hdigits : digits ≤ digits') (h : Derives depth digits text es) :
    Derives depth' digits' text es := by
  obtain ⟨gap, body, hgap, hbody⟩ := h
  exact ⟨gap, body, hgap, hbody.imp fun hterm => hterm.imp (DerivesTerm.mono hdigits hdepth)⟩

end Mono

/-! ## One reading only -/

/-- At most one thing stands in front of a text by the rule. -/
def Unique (rule : Rule ν τ) : Prop :=
  ∀ ⦃cs e e' rest rest'⦄, rule cs e rest → rule cs e' rest' → e = e' ∧ rest = rest'

/-- Nothing stands there by the rule. -/
def Ends (rule : Rule ν τ) (cs : List Char) : Prop := ∀ e rest, ¬ rule cs e rest

section Unique

variable {rule : Rule ν τ}

theorem Spaced.unique (hrule : Unique rule) : Unique (Spaced rule) := by
  intro cs e e' rest rest' h h'
  obtain ⟨gap, behind, he, hgap⟩ := h
  obtain ⟨gap', behind', he', hgap'⟩ := h'
  obtain ⟨rfl, rfl⟩ := hrule he he'
  exact ⟨rfl, (hgap.unique hgap').2⟩

theorem Spaced.ends (h : Ends rule cs) : Ends (Spaced rule) cs := by
  intro e rest hspaced
  obtain ⟨_, behind, he, _⟩ := hspaced
  exact h e behind he

theorem Sequence.unique {es es' : List (Expr ν τ)} {rest' : List Char} (hrule : Unique rule)
    (h : Sequence rule cs es rest) (h' : Sequence rule cs es' rest') (hend : Ends rule rest)
    (hend' : Ends rule rest') : es = es' ∧ rest = rest' := by
  induction h generalizing es' with
  | nil =>
    cases h' with
    | nil => exact ⟨rfl, rfl⟩
    | cons he' => exact absurd he' (hend _ _)
  | cons he _ ih =>
    cases h' with
    | nil => exact absurd he (hend' _ _)
    | cons he' hes' =>
      obtain ⟨rfl, rfl⟩ := hrule he he'
      obtain ⟨rfl, rfl⟩ := ih hes' hend
      exact ⟨rfl, rfl⟩

/-- Each form reads a text in one way. -/
theorem Matches.unique {e' : Expr ν τ} {rest' : List Char}
    (hinner : ∀ rule, inner = some rule → Unique rule ∧ ∀ rest, Ends rule (']' :: rest))
    (h : Matches digits inner form cs e rest) (h' : Matches digits inner form cs e' rest') :
    e = e' ∧ rest = rest' := by
  cases h with
  | comment hl hb =>
    cases h' with
    | comment hl' hb' =>
      obtain ⟨rfl, rfl⟩ := hl.unique hl'
      exact ⟨rfl, (hb.unique hb').2⟩
  | @boolean value =>
    generalize htext : letters value ++ rest = cs at h'
    cases h' with
    | @boolean value' =>
      cases value <;> cases value' <;> simp_all [letters]
  | character =>
    cases h'
    exact ⟨rfl, rfl⟩
  | number _ hr =>
    cases h' with
    | number _ hr' =>
      obtain ⟨rfl, rfl⟩ := hr.unique hr'
      exact ⟨rfl, rfl⟩
  | quotation hrule hgap hitems =>
    cases h' with
    | quotation hrule' hgap' hitems' =>
      obtain rfl := Option.some.inj (hrule.symm.trans hrule')
      obtain ⟨hunique, hends⟩ := hinner _ hrule
      obtain ⟨rfl, rfl⟩ := hgap.unique hgap'
      obtain ⟨rfl, heq⟩ := hitems.unique hunique hitems' (hends _) (hends _)
      exact ⟨rfl, (List.cons.inj heq).2⟩
  | pair hrule hgap ha hb =>
    cases h' with
    | pair hrule' hgap' ha' hb' =>
      obtain rfl := Option.some.inj (hrule.symm.trans hrule')
      obtain ⟨hunique, _⟩ := hinner _ hrule
      obtain ⟨rfl, rfl⟩ := hgap.unique hgap'
      obtain ⟨rfl, rfl⟩ := hunique ha ha'
      obtain ⟨rfl, heq⟩ := hunique hb hb'
      exact ⟨rfl, (List.cons.inj heq).2⟩
  | @string d text _ _ htext =>
    generalize heq : d :: (text ++ d :: rest) = cs at h'
    cases h' with
    | @string d' text' _ _ htext' =>
      obtain ⟨rfl, heq⟩ := List.cons.inj heq
      obtain ⟨rfl, hrest⟩ := (run_until htext).unique (heq ▸ run_until htext')
      exact ⟨rfl, (List.cons.inj hrest).2⟩
  | word _ hr =>
    cases h' with
    | word _ hr' =>
      obtain ⟨rfl, rfl⟩ := hr.unique hr'
      exact ⟨rfl, rfl⟩

theorem First.unique
    (hinner : ∀ rule, inner = some rule → Unique rule ∧ ∀ rest, Ends rule (']' :: rest)) :
    Unique (First digits inner) := by
  intro cs e e' rest rest' h h'
  obtain ⟨form, hmatch, hfirst⟩ := h
  obtain ⟨form', hmatch', hfirst'⟩ := h'
  -- Of two forms neither of which comes before the other each is the other.
  have hrank : form.rank = form'.rank := by
    refine Nat.le_antisymm (Nat.le_of_not_lt fun hlt => ?_) (Nat.le_of_not_lt fun hlt => ?_)
    · exact hfirst _ hlt _ _ hmatch'
    · exact hfirst' _ hlt _ _ hmatch
  obtain rfl : form = form' := Form.rank_injective hrank
  exact hmatch.unique hinner hmatch'

theorem DerivesTerm.ends {depth : Nat} (h : rest = [] ∨ ∃ cs, rest = ']' :: cs) :
    Ends (DerivesTerm (ν := ν) (τ := τ) digits depth) rest := by
  intro e behind hterm
  obtain ⟨form, hmatch, _⟩ := derivesTerm_iff.mp hterm
  obtain ⟨c, more, rfl, hc⟩ := hmatch.begins
  rcases h with h | ⟨cs, h⟩
  · cases h
  · cases h
    cases form <;> cases hc

/-- **The rules derive at most one thing.** -/
theorem DerivesTerm.unique (digits depth : Nat) :
    Unique (DerivesTerm (ν := ν) (τ := τ) digits depth) := by
  induction depth with
  | zero => exact First.unique fun rule hrule => by cases hrule
  | succ depth ih =>
    refine First.unique fun rule hrule => ?_
    cases hrule
    exact ⟨Spaced.unique ih, fun rest => Spaced.ends (DerivesTerm.ends (.inr ⟨rest, rfl⟩))⟩

theorem Derives.unique {depth : Nat} {text : List Char} {es es' : List (Expr ν τ)}
    (h : Derives depth digits text es) (h' : Derives depth digits text es') : es = es' := by
  obtain ⟨gap, body, hgap, hbody⟩ := h
  obtain ⟨gap', body', hgap', hbody'⟩ := h'
  obtain ⟨rfl, rfl⟩ := hgap.unique hgap'
  have hend : Ends (Spaced (DerivesTerm (ν := ν) (τ := τ) digits depth)) [] :=
    Spaced.ends (DerivesTerm.ends (.inl rfl))
  exact (hbody.unique (Spaced.unique (DerivesTerm.unique digits depth)) hbody' hend hend).1

end Unique

end Grammar
end Leftward
