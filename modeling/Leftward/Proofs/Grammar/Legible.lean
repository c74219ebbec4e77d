import Leftward.Proofs.Expr.Layout
import Leftward.Proofs.Grammar.Tokens
import Leftward.Proofs.Text.Decimal

/-!
# Legibility — what a text can say

Not every expression can be read back from its text. Three things get in the way, and they are not
of one kind.

- **The text is read as something else.** A word with a bracket in it, a string that holds all
  three delimiters: what is read then depends on what stands next to it. `Legible` keeps such
  expressions out.
- **The text is that of a word.** Booleans, negative numbers, natives and definitions render as
  words (`asRead`). These are read back, as those words.
- **There is no text**: a comment renders as nothing, an integer may be too large. These are not
  legible either.

Nothing is lost by going through such a word: an expression and what its text reads as have **the
same text** (`spell_asRead`).
-/

namespace Leftward
namespace Expr

open Grammar

variable {ν τ : Type}

/-- The expression, if it is a word or a number, is one that the notation has. -/
def Lexical : Expr ν τ → Prop
  | word name => IsWord name.toList
  | num value => value.natAbs < Decimal.tooLarge
  | _ => True

/-- The text of the expression is read as it was meant, if the texts of its parts are. -/
def Legible : Expr ν τ → Prop
  | comment _ => False
  | quot items => ∀ text, text? items = some text → ∃ d ∈ delimiters, d ∉ text
  | e => Lexical e

/-- The expression renders in the notation, not as a word that stands for it. -/
def Literal : Expr ν τ → Prop
  | bool _ | native _ _ | defn _ _ _ => False
  | num value => 0 ≤ value
  | _ => True

mutual

/-- What the text of an expression is read as. -/
def asRead : Expr ν τ → Expr ν τ
  | bool value => word (if value then "?True" else "?False")
  | num value => if value < 0 then word ("-" ++ value.natAbs.repr) else num value
  | native _ _ => word "<function>"
  | defn _ _ _ => word "<definition>"
  | quot items => quot (asReadAll items)
  | pair a b => pair (asRead a) (asRead b)
  | e => e

/-- What the texts of the expressions are read as. -/
def asReadAll : List (Expr ν τ) → List (Expr ν τ)
  | [] => []
  | e :: rest => asRead e :: asReadAll rest

end

theorem asReadAll_eq_map (items : List (Expr ν τ)) : asReadAll items = items.map asRead := by
  induction items with
  | nil => rfl
  | cons e rest ih => rw [asReadAll, ih, List.map_cons]

theorem asRead_of_literal {e : Expr ν τ} (hleaf : e.isLeaf = true) (h : Literal e) :
    asRead e = e := by
  cases e with
  | bool | native | defn => exact h.elim
  | num value => rw [asRead, if_neg (Int.not_lt.mpr h)]
  | quot | pair => cases hleaf
  | word | chr | comment => rw [asRead] <;> simp

/-- **What renders in the notation throughout is read as itself.** -/
theorem asRead_eq_self {e : Expr ν τ} (h : Everywhere Literal e) : asRead e = e := by
  induction e using nested_induction with
  | quotation items ih =>
    have hitems := (everywhere_quot.mp h).2
    have hmap : items.map asRead = items :=
      (List.map_congr_left fun x hx => ih x hx (hitems x hx)).trans (List.map_id items)
    rw [asRead, asReadAll_eq_map, hmap]
  | pair a b iha ihb =>
    obtain ⟨_, ha, hb⟩ := everywhere_pair.mp h
    rw [asRead, iha ha, ihb hb]
  | leaf e hleaf => exact asRead_of_literal hleaf h.self

/-! ## What is read has the same text -/

theorem char?_asRead (e : Expr ν τ) : (asRead e).char? = e.char? := by
  cases e with
  | num value =>
    rw [asRead]
    split <;> rfl
  | word | chr | comment => rw [asRead] <;> simp
  | _ => simp [asRead, char?]

theorem isComment_asRead (e : Expr ν τ) : (asRead e).isComment = e.isComment := by
  cases e with
  | num value =>
    rw [asRead]
    split <;> rfl
  | word | chr | comment => rw [asRead] <;> simp
  | _ => simp [asRead, isComment]

theorem text?_asRead (items : List (Expr ν τ)) : text? (items.map asRead) = text? items := by
  induction items with
  | nil => rfl
  | cons e rest ih => rw [List.map_cons, text?_cons, text?_cons, ih, char?_asRead]

theorem spellShown_asRead {items : List (Expr ν τ)}
    (h : ∀ e ∈ items, spell (asRead e) = spell e) :
    spellShown (items.map asRead) = spellShown items := by
  induction items with
  | nil => rfl
  | cons e rest ih =>
    rw [List.map_cons, spellShown, spellShown, isComment_asRead, h e List.mem_cons_self,
      ih fun x hx => h x (List.mem_cons_of_mem e hx)]

theorem spell_asRead {e : Expr ν τ} (h : Everywhere Lexical e) : spell (asRead e) = spell e := by
  induction e using nested_induction with
  | quotation items ih =>
    have hitems := (everywhere_quot.mp h).2
    rw [asRead, asReadAll_eq_map, spell, spell, text?_asRead,
      spellShown_asRead fun x hx => ih x hx (hitems x hx)]
  | pair a b iha ihb =>
    obtain ⟨_, ha, hb⟩ := everywhere_pair.mp h
    rw [asRead, spell, spell, iha ha, ihb hb]
  | leaf e hleaf =>
    cases e with
    | num value =>
      rw [asRead]
      split
      · rename_i hneg
        simp [spell, leaf, Decimal.write_of_lt h.self, hneg]
      · rfl
    | word | chr | comment => rw [asRead_of_literal hleaf trivial]
    | bool | native | defn => simp [asRead, spell, leaf]
    | quot | pair => cases hleaf

/-! ## The texts of strings and leaves are tokens -/

/-- The delimiter of a legible string delimits, and does not occur in the string. -/
theorem delimiter_of_legible {text : List Char} (h : ∃ d ∈ delimiters, d ∉ text) :
    isDelimiter (delimiter text) = true ∧ delimiter text ∉ text := by
  obtain ⟨d, hd, htext⟩ := h
  have hsome : (delimiters.find? fun d => !text.contains d).isSome = true :=
    List.find?_isSome.mpr ⟨d, hd, by simpa using htext⟩
  obtain ⟨found, hfound⟩ := Option.isSome_iff_exists.mp hsome
  have hdelimiter : delimiter text = found := by rw [delimiter, hfound, Option.getD_some]
  rw [hdelimiter]
  refine ⟨?_, by simpa using List.find?_some hfound⟩
  have hall : ∀ d ∈ delimiters, isDelimiter d = true := List.all_eq_true.mp rfl
  exact hall found (List.mem_of_find?_eq_some hfound)

theorem isWordChar_of_isDigit {c : Char} (h : c.isDigit = true) : isWordChar c = true := by
  have hblank := Decimal.not_isBlank_of_isDigit h
  obtain ⟨hlow, hhigh⟩ := Decimal.isDigit_iff.mp h
  have hne : ∀ d : Char, d.isDigit = false → c ≠ d := by
    intro d hd heq
    subst heq
    rw [h] at hd
    cases hd
  refine isWordChar_iff.mpr ⟨hblank, by omega, hne '[' (by decide), hne ']' (by decide),
    hne '(' (by decide), hne ')' (by decide), ?_⟩
  simp only [isDelimiter, Bool.or_eq_false_iff, decide_eq_false_iff_not]
  exact ⟨⟨hne _ (by decide), hne _ (by decide)⟩, hne _ (by decide)⟩

/-- The text of a negative number is a word. -/
theorem isWord_negative (n : Nat) : IsWord ('-' :: n.repr.toList) := by
  refine isWord_cons.mpr ⟨⟨by decide, fun d hd => ?_⟩, fun h => ?_, ?_, ?_⟩
  · exact isWordChar_of_isDigit (Decimal.isDigit_of_mem_repr hd)
  · have hdash : '-' ∈ n.repr.toList :=
      (List.cons_prefix_cons.mp h).2.subset List.mem_cons_self
    cases Decimal.isDigit_of_mem_repr hdash
  · simp [List.cons_prefix_cons]
  · simp [List.cons_prefix_cons]

/-- The text of a legible leaf is a token of the grammar: a word, a number or a character. -/
theorem token_of_leaf {e : Expr ν τ} {s : String} (h : e.leaf = some s) (hs : s ≠ "")
    (hl : Legible e) :
    (IsWord s.toList ∧ asRead e = word s) ∨
    (∃ n : Nat, n < Decimal.tooLarge ∧ s = n.repr ∧ asRead e = num n) ∨
    (∃ c, s = String.ofList ['.', c] ∧ asRead e = chr c) := by
  cases e with
  | word name =>
    cases h
    exact .inl ⟨hl, asRead_of_literal rfl trivial⟩
  | num value =>
    rw [leaf, Decimal.write_of_lt hl] at h
    cases h
    rw [asRead]
    split
    · refine .inl ⟨?_, rfl⟩
      rw [String.toList_append]
      exact isWord_negative _
    · rename_i hneg
      exact .inr (.inl ⟨value.natAbs, hl, rfl, by rw [Int.natAbs_of_nonneg (Int.not_lt.mp hneg)]⟩)
  | bool value =>
    cases h
    refine .inl ⟨?_, by rw [asRead]⟩
    cases value <;> decide
  | chr c =>
    cases h
    exact .inr (.inr ⟨c, rfl, asRead_of_literal rfl trivial⟩)
  | defn | native =>
    cases h
    exact .inl ⟨by decide, by rw [asRead]⟩
  | comment => exact hl.elim
  | quot | pair =>
    cases h
    exact absurd rfl hs

/-- A legible leaf has a text. -/
theorem exists_leaf_of_legible {e : Expr ν τ} (hl : Legible e) (hleaf : e.isLeaf = true) :
    ∃ s, e.leaf = some s ∧ s ≠ "" := by
  cases e with
  | word name =>
    obtain ⟨c, cs, hname, _⟩ := hl.1
    refine ⟨name, rfl, ?_⟩
    intro heq
    subst heq
    cases hname
  | num value =>
    refine ⟨_, Decimal.write_of_lt hl, ?_⟩
    split
    · simp
    · intro h
      exact Decimal.repr_ne_nil value.natAbs (by rw [h]; rfl)
  | bool value =>
    refine ⟨_, rfl, ?_⟩
    cases value <;> decide
  | chr c => exact ⟨_, rfl, by simp⟩
  | defn | native => exact ⟨_, rfl, by decide⟩
  | comment => exact hl.elim
  | quot | pair => cases hleaf

theorem lexical_of_legible {e : Expr ν τ} (hl : Legible e) : Lexical e := by
  cases e with
  | comment | quot => trivial
  | _ => exact hl

end Expr
end Leftward
