import Leftward.Proofs.Grammar.Exact

/-!
# Texts cut short

No token looks further than to where it ends, and there it only asks that its class of characters
does not go on, which it does not at the end of a text either. So **the end of a text may be cut off
behind what is derived of it**, and the same is derived of what is left (`DerivesTerm.cuts`). With
brackets this is so because what is behind the bracket is behind everything in it.
-/

namespace Leftward
namespace Grammar

open Text

variable {ν τ : Type} {cs mid behind : List Char} {e : Expr ν τ} {es : List (Expr ν τ)}

/-- What stands in front of a text by the rule stands there with an end cut off, as long as that is
a part of what is behind it. -/
def Cuts (rule : Rule ν τ) : Prop :=
  ∀ ⦃cs e mid behind⦄, rule cs e (mid ++ behind) → ∃ cut, cs = cut ++ behind ∧ rule cut e mid

theorem Stops.of_append {p : Char → Bool} (h : Stops p (mid ++ behind)) : Stops p mid := by
  cases mid with
  | nil => exact stops_nil p
  | cons c mid => exact stops_cons.mpr (stops_cons.mp h)

theorem Run.cut {p : Char → Bool} {token : List Char} (h : Run p token cs (mid ++ behind)) :
    cs = (token ++ mid) ++ behind ∧ Run p token (token ++ mid) mid := by
  obtain ⟨rfl, htoken, hstops⟩ := h
  exact ⟨(List.append_assoc _ _ _).symm, rfl, htoken, hstops.of_append⟩

theorem Cuts.spaced {rule : Rule ν τ} (hrule : Cuts rule) : Cuts (Spaced rule) := by
  intro cs e mid behind h
  obtain ⟨gap, after, he, hgap⟩ := h
  obtain ⟨rfl, hrun⟩ := hgap.cut
  obtain ⟨cut, rfl, hcut⟩ := hrule he
  exact ⟨cut, rfl, gap, _, hcut, hrun⟩

theorem Cuts.sequence {rule : Rule ν τ} (hrule : Cuts rule)
    (h : Sequence rule cs es (mid ++ behind)) :
    ∃ cut, cs = cut ++ behind ∧ Sequence rule cut es mid := by
  generalize hrest : mid ++ behind = rest at h
  induction h with
  | nil => exact ⟨mid, hrest.symm, .nil⟩
  | cons he _ ih =>
    obtain ⟨others, rfl, hothers⟩ := ih hrest
    obtain ⟨cut, rfl, hcut⟩ := hrule he
    exact ⟨cut, rfl, .cons hcut hothers⟩

theorem Matches.cut {digits : Nat} {inner : Option (Rule ν τ)} {form : Form}
    (hinner : ∀ rule, inner = some rule → Cuts rule)
    (h : Matches digits inner form cs e (mid ++ behind)) :
    ∃ cut, cs = cut ++ behind ∧ Matches digits inner form cut e mid := by
  generalize hrest : mid ++ behind = rest at h
  cases h with
  | comment hl hb =>
    subst hrest
    obtain ⟨rfl, hbreaks⟩ := hb.cut
    obtain ⟨rfl, hline⟩ := hl.cut
    exact ⟨_, rfl, .comment hline hbreaks⟩
  | @boolean value =>
    subst hrest
    exact ⟨letters value ++ mid, (List.append_assoc _ _ _).symm, .boolean⟩
  | character =>
    subst hrest
    exact ⟨_, rfl, .character⟩
  | number hne hr hlen =>
    subst hrest
    obtain ⟨rfl, hrun⟩ := hr.cut
    exact ⟨_, rfl, .number hne hrun hlen⟩
  | @quotation rule _ _ body _ es hrule hgap hitems =>
    subst hrest
    have hclosed : Sequence rule body es ((']' :: mid) ++ behind) := hitems
    obtain ⟨_, rfl, hbody⟩ := (hinner _ hrule).sequence hclosed
    obtain ⟨rfl, hrun⟩ := hgap.cut
    exact ⟨_, rfl, .quotation hrule hrun hbody⟩
  | @pair rule _ _ body between _ a b hrule hgap ha hb =>
    subst hrest
    have hclosed : rule between b ((')' :: mid) ++ behind) := hb
    obtain ⟨_, rfl, hsecond⟩ := hinner _ hrule hclosed
    obtain ⟨_, rfl, hfirst⟩ := hinner _ hrule ha
    obtain ⟨rfl, hrun⟩ := hgap.cut
    exact ⟨_, rfl, .pair hrule hrun hfirst hsecond⟩
  | @string d text _ hd htext =>
    subst hrest
    refine ⟨d :: (text ++ d :: mid), ?_, .string hd htext⟩
    rw [List.cons_append, List.append_assoc, List.cons_append]
  | word hc hr =>
    subst hrest
    obtain ⟨rfl, hrun⟩ := hr.cut
    exact ⟨_, rfl, .word hc hrun⟩

/-- **A term does not depend on what is behind it.** -/
theorem DerivesTerm.cuts (digits depth : Nat) :
    Cuts (DerivesTerm (ν := ν) (τ := τ) digits depth) := by
  induction depth using Nat.strongRecOn with
  | ind depth ih =>
    intro cs e mid behind h
    obtain ⟨form, hmatch, hword⟩ := first_iff.mp (derivesTerm_iff.mp h)
    have hinner : ∀ rule, inside (ν := ν) (τ := τ) digits depth = some rule → Cuts rule := by
      intro rule hrule
      obtain ⟨less, rfl, rfl⟩ := inside_eq_some hrule
      exact (ih less (Nat.lt_succ_self less)).spaced
    obtain ⟨cut, rfl, hcut⟩ := hmatch.cut hinner
    refine ⟨cut, rfl, derivesTerm_iff.mpr (first_iff.mpr ⟨form, hcut, fun hform => ?_⟩)⟩
    -- What begins the text that is left begins the whole text.
    have hprefix : cut <+: cut ++ behind := List.prefix_append cut behind
    obtain ⟨hdash, hletters⟩ := hword hform
    exact ⟨fun hp => hdash (hp.trans hprefix), fun value hp => hletters value (hp.trans hprefix)⟩

end Grammar
end Leftward
