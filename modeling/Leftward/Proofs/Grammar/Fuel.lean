import Leftward.Proofs.Grammar.Meaning

/-!
# The reader's fuel

The reader counts down, so that it ends, from the length of the text. **That is no limit**: every
term takes something from the text (`term_length_lt`), so there are never more terms than
characters, and the same is read with any more fuel (`term_fuel`). Only so can a text be compared
with a longer one that it is a part of.
-/

namespace Leftward
namespace Grammar

open Text

variable {fuel room : Nat} {cs rest : List Char} {node : Node}

/-- What reads inside brackets, if there is room for any. -/
def within (fuel : Nat) : Nat → Option (List Char → Read Node)
  | 0 => none
  | room + 1 => some fun cs => spaced (term fuel room cs)

theorem term_eq_alternatives (fuel room : Nat) (cs : List Char) :
    term fuel room cs = alternatives fuel (within fuel room) cs := by
  cases room <;> rfl

/-! ## Every term takes something from the text -/

/-- Whatever is read is not nothing. -/
def Advances (p : List Char → Read Node) : Prop :=
  ∀ cs node rest, p cs = .matched node rest → rest.length < cs.length

section Length

theorem length_dropWhile_le (p : Char → Bool) (cs : List Char) :
    (cs.dropWhile p).length ≤ cs.length := (List.dropWhile_suffix p).length_le

theorem skip_length_le (cs : List Char) : (skip cs).length ≤ cs.length := length_dropWhile_le _ _

theorem Advances.spaced {p : List Char → Read Node} (h : Advances p) :
    Advances fun cs => spaced (p cs) := by
  intro cs node rest hspaced
  obtain ⟨_, behind, hp, heq⟩ := andThen_eq_matched hspaced
  cases heq
  exact Nat.lt_of_le_of_lt (skip_length_le _) (h _ _ _ hp)

theorem many_length_le {p : List Char → Read Node} (h : Advances p) {count : Nat}
    {nodes : List Node} (hm : many p count cs = some (nodes, rest)) : rest.length ≤ cs.length := by
  induction count generalizing cs nodes with
  | zero =>
    cases hm
    exact Nat.le_refl _
  | succ count ih =>
    rw [many] at hm
    split at hm
    · rename_i node mid hnode
      obtain ⟨⟨others, _⟩, hothers, heq⟩ := Option.map_eq_some_iff.mp hm
      cases heq
      exact Nat.le_trans (ih hothers) (Nat.le_of_lt (h _ _ _ hnode))
    · cases hm
      exact Nat.le_refl _
    · cases hm

theorem comment_length_lt : Advances comment := by
  intro cs node rest h
  unfold comment at h
  split at h
  · rename_i line
    cases h
    have := length_dropWhile_le (!isLineBreak ·) line
    have := length_dropWhile_le isLineBreak (line.dropWhile (!isLineBreak ·))
    simp only [List.length_cons]
    omega
  · cases h

theorem boolean_length_lt : Advances boolean := by
  intro cs node rest h
  unfold boolean at h
  split at h
  · cases h
    simp only [List.length_cons]
    omega
  · cases h
    simp only [List.length_cons]
    omega
  · cases h

theorem character_length_lt : Advances character := by
  intro cs node rest h
  unfold character at h
  split at h
  · cases h
    simp only [List.length_cons]
    omega
  · cases h

theorem number_length_lt : Advances number := by
  intro cs node rest h
  unfold number at h
  split at h
  · cases h
  · rename_i hne
    cases h
    have htake := List.length_pos_iff.mpr hne
    calc (cs.dropWhile Char.isDigit).length
        < (cs.takeWhile Char.isDigit).length + (cs.dropWhile Char.isDigit).length := by omega
      _ = cs.length := by rw [← List.length_append, List.takeWhile_append_dropWhile]

theorem string_length_lt : Advances string := by
  intro cs node rest h
  unfold string at h
  split at h
  · rename_i d text
    split at h
    · split at h
      · rename_i hbehind
        cases h
        have := length_dropWhile_le (· ≠ d) text
        rw [hbehind] at this
        simp only [List.length_cons] at this ⊢
        omega
      · cases h
    · cases h
  · cases h

theorem word_length_lt : Advances word := by
  intro cs node rest h
  unfold word at h
  split at h
  · rename_i c name
    split at h
    · cases h
      exact Nat.lt_succ_of_le (length_dropWhile_le _ _)
    · cases h
  · cases h

variable {inner : Option (List Char → Read Node)}

theorem quotation_length_lt (hinner : ∀ p, inner = some p → Advances p) :
    Advances (quotation fuel inner) := by
  intro cs node rest h
  unfold quotation at h
  split at h
  · rename_i body
    split at h
    · cases h
    · rename_i p
      split at h
      · rename_i hitems
        cases h
        have := many_length_le (hinner p rfl) hitems
        have := skip_length_le body
        simp only [List.length_cons] at *
        omega
      · cases h
      · cases h
  · cases h

theorem pair_length_lt (hinner : ∀ p, inner = some p → Advances p) : Advances (pair inner) := by
  intro cs node rest h
  unfold pair at h
  split at h
  · rename_i body
    split at h
    · cases h
    · rename_i p
      obtain ⟨first, mid, hfirst, h⟩ := andThen_eq_matched h
      obtain ⟨second, behind, hsecond, h⟩ := andThen_eq_matched h
      split at h
      · cases h
        have := hinner p rfl _ _ _ hfirst
        have := hinner p rfl _ _ _ hsecond
        have := skip_length_le body
        simp only [List.length_cons] at *
        omega
      · cases h
  · cases h

theorem alternatives_length_lt (hinner : ∀ p, inner = some p → Advances p) :
    Advances (alternatives fuel inner) := by
  intro cs node rest h
  simp only [alternatives, Read.orElse_eq_matched] at h
  rcases h with h | ⟨-, h | ⟨-, h | ⟨-, h | ⟨-, h | ⟨-, h | ⟨-, h | ⟨-, h⟩⟩⟩⟩⟩⟩⟩
  · exact comment_length_lt _ _ _ h
  · exact boolean_length_lt _ _ _ h
  · exact character_length_lt _ _ _ h
  · exact number_length_lt _ _ _ h
  · exact quotation_length_lt hinner _ _ _ h
  · exact pair_length_lt hinner _ _ _ h
  · exact string_length_lt _ _ _ h
  · exact word_length_lt _ _ _ h

/-- **Every term takes something from the text.** -/
theorem term_length_lt (fuel room : Nat) : Advances (term fuel room) := by
  induction room with
  | zero => exact alternatives_length_lt fun p hp => by cases hp
  | succ room ih =>
    refine alternatives_length_lt fun p hp => ?_
    cases hp
    exact ih.spaced

end Length

/-! ## More fuel makes no difference -/

section Fuel

variable {p q : List Char → Read Node} {fuel₁ fuel₂ : Nat}

theorem term_nil (fuel room : Nat) : term fuel room [] = .unmatched := by
  rw [term_eq_alternatives]
  exact alternatives_closing (.inl rfl)

/-- Readers that agree on all texts no longer than this one read the same one after the other. -/
theorem many_congr (hp : Advances p) (hnil : p [] = .unmatched)
    (hpq : ∀ text, text.length ≤ cs.length → p text = q text) {count₁ count₂ : Nat}
    (h₁ : cs.length ≤ count₁) (h₂ : cs.length ≤ count₂) :
    many p count₁ cs = many q count₂ cs := by
  -- Either count is enough, so it comes to an end only where the text does.
  induction count₁ generalizing cs count₂ with
  | zero =>
    obtain rfl := List.length_eq_zero_iff.mp (Nat.le_zero.mp h₁)
    cases count₂ with
    | zero => rfl
    | succ count₂ => rw [many, many, ← hpq [] (Nat.le_refl _), hnil]
  | succ count₁ ih =>
    cases count₂ with
    | zero =>
      obtain rfl := List.length_eq_zero_iff.mp (Nat.le_zero.mp h₂)
      rw [many, many, hnil]
    | succ count₂ =>
      rw [many, many, ← hpq cs (Nat.le_refl _)]
      cases hfirst : p cs with
      | unmatched => rfl
      | tooDeep => rfl
      | matched node rest =>
        have hlt := hp _ _ _ hfirst
        have hrest : many p count₁ rest = many q count₂ rest :=
          ih (fun text ht => hpq text (by omega)) (by omega) (by omega)
        simp only [hrest]

/-- Where both fuels are enough for the text, it makes no difference which it is. -/
def Agree (fuel₁ fuel₂ room : Nat) : Prop :=
  ∀ cs : List Char, cs.length ≤ fuel₁ → cs.length ≤ fuel₂ → term fuel₁ room cs = term fuel₂ room cs

theorem Agree.many (h : Agree fuel₁ fuel₂ room) {count₁ count₂ : Nat} (h₁ : cs.length ≤ fuel₁)
    (h₂ : cs.length ≤ fuel₂) (hcount₁ : cs.length ≤ count₁) (hcount₂ : cs.length ≤ count₂) :
    many (fun cs => spaced (term fuel₁ room cs)) count₁ cs =
      many (fun cs => spaced (term fuel₂ room cs)) count₂ cs :=
  many_congr (term_length_lt fuel₁ room).spaced (by rw [term_nil, spaced_unmatched])
    (fun text ht => congrArg spaced (h text (by omega) (by omega))) hcount₁ hcount₂

theorem quotation_fuel (ih : ∀ less < room, Agree fuel₁ fuel₂ less) (h₁ : cs.length ≤ fuel₁)
    (h₂ : cs.length ≤ fuel₂) :
    quotation fuel₁ (within fuel₁ room) cs = quotation fuel₂ (within fuel₂ room) cs := by
  unfold quotation
  split
  · rename_i body
    cases room with
    | zero => rfl
    | succ less =>
      have hbody := skip_length_le body
      simp only [List.length_cons] at h₁ h₂
      have hfuel₁ : (skip body).length ≤ fuel₁ := by omega
      have hfuel₂ : (skip body).length ≤ fuel₂ := by omega
      simp only [within, (ih less (Nat.lt_succ_self less)).many hfuel₁ hfuel₂ hfuel₁ hfuel₂]
  · rfl

theorem pair_fuel (ih : ∀ less < room, Agree fuel₁ fuel₂ less) (h₁ : cs.length ≤ fuel₁)
    (h₂ : cs.length ≤ fuel₂) : pair (within fuel₁ room) cs = pair (within fuel₂ room) cs := by
  unfold pair
  split
  · rename_i body
    cases room with
    | zero => rfl
    | succ less =>
      have hbody := skip_length_le body
      have hless := ih less (Nat.lt_succ_self less)
      simp only [List.length_cons] at h₁ h₂
      simp only [within, ← hless (skip body) (by omega) (by omega)]
      cases hfirst : term fuel₁ less (skip body) with
      | unmatched => rfl
      | tooDeep => rfl
      | matched first mid =>
        have hlt := term_length_lt _ _ _ _ _ hfirst
        have hmid := skip_length_le mid
        simp only [spaced_matched, Read.andThen, ← hless (skip mid) (by omega) (by omega)]
  · rfl

/-- **The reader's fuel is no limit**: with any that the text does not exceed the same is read. -/
theorem term_fuel : Agree fuel₁ fuel₂ room := by
  induction room using Nat.strongRecOn with
  | ind room ih =>
    intro cs h₁ h₂
    rw [term_eq_alternatives, term_eq_alternatives, alternatives, alternatives,
      quotation_fuel ih h₁ h₂, pair_fuel ih h₁ h₂]

end Fuel

end Grammar
end Leftward
