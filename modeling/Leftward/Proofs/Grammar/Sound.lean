import Leftward.Proofs.Grammar.Complete
import Leftward.Proofs.Grammar.Fuel

/-!
# What is read the rules derive

Whatever the reader has read, if its node means an expression, **stands in front of the text by the
rules as that expression** (`Reads.derivesTerm`). For every alternative it is said what its node
means, so that the text of the node can be found in the text that was read. A numeral that is too
long is read but means nothing, so nothing has to be derived. The induction is on the room for
brackets.
-/

namespace Leftward
namespace Grammar

open Text

variable {ν τ : Type} {fuel room : Nat} {cs rest : List Char} {e : Expr ν τ}
  {es : List (Expr ν τ)}

/-! ## Tokens -/

section Tokens

variable {digits : Nat} {inner : Option (Rule ν τ)} {node : Node}

theorem matches_of_comment (h : comment cs = .matched node rest)
    (he : elaborate node = .ok (.expr e)) : Matches digits inner .comment cs e rest := by
  unfold comment at h
  split at h
  · rename_i line
    cases h
    have hl := run_takeWhile (fun c => !isLineBreak c) line
    have hb := run_takeWhile isLineBreak (line.dropWhile (!isLineBreak ·))
    rw [elaborate_comment (by simpa using hl.2.1) hb.2.1] at he
    cases he
    exact .comment hl hb
  · cases h

theorem matches_of_boolean (h : boolean cs = .matched node rest)
    (he : elaborate node = .ok (.expr e)) : Matches digits inner .boolean cs e rest := by
  have hletters (value : Bool) :
      Matches digits inner .boolean (letters value ++ rest) (.bool value : Expr ν τ) rest :=
    .boolean
  unfold boolean at h
  split at h
  · cases h
    cases he
    exact hletters true
  · cases h
    cases he
    exact hletters false
  · cases h

theorem matches_of_character (h : character cs = .matched node rest)
    (he : elaborate node = .ok (.expr e)) : Matches digits inner .character cs e rest := by
  unfold character at h
  split at h
  · cases h
    simp only [Node.leaf, elaborate, elaborateText, String.toList_ofList, Except.map] at he
    cases he
    exact .character
  · cases h

theorem matches_of_number (h : number cs = .matched node rest)
    (he : elaborate node = .ok (.expr e)) :
    Matches Decimal.maxDigits inner .number cs e rest := by
  unfold number at h
  split at h
  · cases h
  · rename_i numeral hne
    cases h
    have hr := run_takeWhile Char.isDigit cs
    by_cases hlen : (cs.takeWhile Char.isDigit).length ≤ Decimal.maxDigits
    · rw [elaborate_number hne hr.2.1 hlen] at he
      cases he
      exact .number hne hr hlen
    · simp only [Node.leaf, elaborate, elaborateText, String.toList_ofList,
        Decimal.read_digits hne hr.2.1, if_neg hlen, Except.map] at he
      cases he

theorem matches_of_string (h : string cs = .matched node rest)
    (he : elaborate node = .ok (.expr e)) : Matches digits inner .string cs e rest := by
  unfold string at h
  split at h
  · rename_i d text
    split at h
    · rename_i hd
      split at h
      · rename_i c behind hbehind
        cases h
        -- The string ends where its delimiter stands, and before that it does not stand.
        obtain ⟨htext, hinside, hstops⟩ := run_takeWhile (fun c => decide (c ≠ d)) text
        rw [hbehind] at htext hstops
        obtain rfl : c = d := by simpa using stops_cons.mp hstops
        have hnot : c ∉ text.takeWhile (fun x => decide (x ≠ c)) := fun hc => by
          simpa using hinside c hc
        rw [elaborate_string] at he
        cases he
        have hmatch : Matches digits inner .string
            (c :: (text.takeWhile (fun x => decide (x ≠ c)) ++ c :: rest))
            (.quot ((text.takeWhile fun x => decide (x ≠ c)).map .chr) : Expr ν τ) rest :=
          .string hd hnot
        rwa [← htext] at hmatch
      · cases h
    · cases h
  · cases h

theorem matches_of_word (h : word cs = .matched node rest)
    (he : elaborate node = .ok (.expr e)) : Matches digits inner .word cs e rest := by
  unfold word at h
  split at h
  · split at h
    · rename_i hc
      cases h
      simp only [Node.leaf, elaborate, elaborateText, String.toList_ofList, Except.map] at he
      cases he
      exact .word hc (run_takeWhile _ _)
    · cases h
  · cases h

end Tokens

/-! ## Brackets -/

theorem elaborate_quotation {items : List Node}
    (h : elaborate (.branch .quotation items) = .ok (.expr e)) :
    ∃ es, e = .quot es ∧ elaborateAll items = .ok (es.map .expr) := by
  simp only [Node.branch, elaborate] at h
  cases hitems : elaborateAll (ν := ν) (τ := τ) items with
  | error failure =>
    rw [hitems] at h
    cases h
  | ok readings =>
    simp only [hitems, Except.map, Reading.quotation, Except.ok.injEq] at h
    split at h
    · rename_i es hes
      cases h
      exact ⟨es, rfl, by rw [mapM_expr?_eq_some hes]⟩
    · cases h

theorem elaborate_pair {first second : Node}
    (h : elaborate (.branch .pair [first, second]) = .ok (.expr e)) :
    ∃ a b, e = .pair a b ∧ elaborate first = .ok (.expr a) ∧ elaborate second = .ok (.expr b) := by
  simp only [Node.branch, elaborate, List.length_cons, List.length_nil] at h
  cases hboth : elaborateAll (ν := ν) (τ := τ) [first, second] with
  | error failure =>
    rw [hboth] at h
    cases h
  | ok readings =>
    obtain ⟨a, others, ha, hothers, rfl⟩ := elaborateAll_cons_eq_ok hboth
    obtain ⟨b, none, hb, hnone, rfl⟩ := elaborateAll_cons_eq_ok hothers
    cases hnone
    rw [hboth] at h
    cases a with
    | expr a =>
      cases b with
      | expr b =>
        cases h
        exact ⟨a, b, rfl, ha, hb⟩
      | _ => cases h
    | _ => cases h

/-- Behind a term the reader passes over all that can be passed over. -/
theorem Spaced.skip {rule : Rule ν τ} (h : rule cs e rest) : Spaced rule cs e (skip rest) :=
  ⟨_, _, h, run_takeWhile _ _⟩

/-- What is read one after the other is a sequence. -/
theorem ReadsAll.sequence {rule : Rule ν τ} {count : Nat}
    (hrule : ∀ {cs e rest}, Reads fuel room cs e rest → rule cs e rest)
    (h : ReadsAll fuel room count cs es rest) : Sequence (Spaced rule) cs es rest := by
  obtain ⟨nodes, hmany, hnodes⟩ := h
  induction count generalizing cs nodes es with
  | zero =>
    cases hmany
    cases es with
    | nil => exact .nil
    | cons => cases hnodes
  | succ count ih =>
    rw [many] at hmany
    split at hmany
    · rename_i node mid hnode
      obtain ⟨⟨others, _⟩, hothers, heq⟩ := Option.map_eq_some_iff.mp hmany
      cases heq
      obtain ⟨reading, readings, hreading, hreadings, heq⟩ := elaborateAll_cons_eq_ok hnodes
      obtain ⟨e, es, rfl, rfl, rfl⟩ := List.map_eq_cons_iff.mp heq
      obtain ⟨_, behind, hterm, heq⟩ := andThen_eq_matched hnode
      cases heq
      exact .cons (.skip (hrule ⟨node, hterm, hreading⟩)) (ih others hothers hreadings)
    · cases hmany
      cases es with
      | nil => exact .nil
      | cons => cases hnodes
    · cases hmany

/-- What is read in so much room the rules derive with so many brackets. -/
def Sound (ν τ : Type) (fuel room : Nat) : Prop :=
  ∀ {cs : List Char} {e : Expr ν τ} {rest : List Char}, Reads fuel room cs e rest →
    DerivesTerm Decimal.maxDigits room cs e rest

theorem matches_of_quotation {node : Node} (ih : ∀ less < room, Sound ν τ fuel less)
    (h : quotation fuel (within fuel room) cs = .matched node rest)
    (he : elaborate node = .ok (.expr e)) :
    Matches Decimal.maxDigits (inside Decimal.maxDigits room) .quotation cs e rest := by
  unfold quotation at h
  split at h
  · cases room with
    | zero => cases h
    | succ less =>
      simp only [within] at h
      split at h
      · rename_i items behind hitems
        cases h
        obtain ⟨es, rfl, hes⟩ := elaborate_quotation he
        have hall : ReadsAll fuel less fuel _ es (']' :: rest) := ⟨items, hitems, hes⟩
        exact .quotation rfl (run_takeWhile _ _) (hall.sequence (ih less (Nat.lt_succ_self less)))
      · cases h
      · cases h
  · cases h

theorem matches_of_pair {node : Node} (ih : ∀ less < room, Sound ν τ fuel less)
    (h : pair (within fuel room) cs = .matched node rest) (he : elaborate node = .ok (.expr e)) :
    Matches Decimal.maxDigits (inside Decimal.maxDigits room) .pair cs e rest := by
  unfold pair at h
  split at h
  · cases room with
    | zero => cases h
    | succ less =>
      simp only [within] at h
      obtain ⟨first, mid, hfirst, h⟩ := andThen_eq_matched h
      obtain ⟨second, behind, hsecond, h⟩ := andThen_eq_matched h
      obtain ⟨_, gapa, hterma, heqa⟩ := andThen_eq_matched hfirst
      obtain ⟨_, gapb, htermb, heqb⟩ := andThen_eq_matched hsecond
      cases heqa
      cases heqb
      split at h
      · rename_i hclose
        cases h
        obtain ⟨a, b, rfl, ha, hb⟩ := elaborate_pair he
        have hless : Sound ν τ fuel less := ih less (Nat.lt_succ_self less)
        have hlast := Spaced.skip (hless ⟨second, htermb, hb⟩)
        rw [hclose] at hlast
        exact .pair rfl (run_takeWhile _ _) (.skip (hless ⟨first, hterma, ha⟩)) hlast
      · cases h
  · cases h

/-- **What is read the rules derive.** -/
theorem Reads.derivesTerm : Sound ν τ fuel room := by
  induction room using Nat.strongRecOn with
  | ind room ih =>
    intro cs e rest h
    obtain ⟨node, hterm, he⟩ := h
    rw [term_eq_alternatives] at hterm
    rw [derivesTerm_iff, first_iff]
    simp only [alternatives, Read.orElse_eq_matched] at hterm
    rcases hterm with h | ⟨hcom, h | ⟨hbool, h | ⟨-, h | ⟨-, h | ⟨-, h | ⟨-, h | ⟨-, h⟩⟩⟩⟩⟩⟩⟩
    · exact ⟨.comment, matches_of_comment h he, by simp⟩
    · exact ⟨.boolean, matches_of_boolean h he, by simp⟩
    · exact ⟨.character, matches_of_character h he, by simp⟩
    · exact ⟨.number, matches_of_number h he, by simp⟩
    · exact ⟨.quotation, matches_of_quotation ih h he, by simp⟩
    · exact ⟨.pair, matches_of_pair ih h he, by simp⟩
    · exact ⟨.string, matches_of_string h he, by simp⟩
    · obtain ⟨htrue, hfalse⟩ := boolean_eq_unmatched_iff.mp hbool
      refine ⟨.word, matches_of_word h he, fun _ => ⟨comment_eq_unmatched_iff.mp hcom, ?_⟩⟩
      rintro (_ | _)
      · exact hfalse
      · exact htrue

end Grammar
end Leftward
