import Leftward.Expr
import Leftward.Proofs.Grammar.Tokens

/-!
# The rules of the grammar

What a text reads as, said without a reader. A term has one of eight forms (`Form`), each of which
says what stands in front of a text and what expression that is (`Matches`); where several match,
**the first one counts** (`First`). A text is a sequence of terms with what is passed over between
them, from its beginning to its end (`Derives`).

Two bounds go along: how many brackets may stand inside each other, and how many digits a numeral
may have. What a bound keeps out is let in by nothing else, for no other form begins with a bracket
or with a digit. In fact the forms are told apart by the character they begin with, and **only for
words does it matter which form comes first** (`first_iff`): a comment and a truth value begin as
words do.
-/

namespace Leftward
namespace Grammar

open Text

variable {ν τ : Type}

/-- What can stand in front of a text: what it reads as, and what is behind it. -/
abbrev Rule (ν τ : Type) := List Char → Expr ν τ → List Char → Prop

/-- The text begins with a run of characters of the class, and the rest does not go on with it. -/
def Run (p : Char → Bool) (token cs rest : List Char) : Prop :=
  cs = token ++ rest ∧ (∀ c ∈ token, p c = true) ∧ Stops p rest

/-- One after the other. -/
inductive Sequence (rule : Rule ν τ) : List Char → List (Expr ν τ) → List Char → Prop where
  | nil {cs : List Char} : Sequence rule cs [] cs
  | cons {cs mid rest : List Char} {e : Expr ν τ} {es : List (Expr ν τ)} :
      rule cs e mid → Sequence rule mid es rest → Sequence rule cs (e :: es) rest

/-- Together with all that is passed over behind it. -/
def Spaced (rule : Rule ν τ) : Rule ν τ :=
  fun cs e rest => ∃ gap behind, rule cs e behind ∧ Run isSkipped gap behind rest

/-! ## Forms -/

/-- The forms of a term, in order. -/
inductive Form where
  | comment
  | boolean
  | character
  | number
  | quotation
  | pair
  | string
  | word
  deriving DecidableEq, Repr

/-- The place of a form in the order. -/
def Form.rank : Form → Nat
  | .comment => 0
  | .boolean => 1
  | .character => 2
  | .number => 3
  | .quotation => 4
  | .pair => 5
  | .string => 6
  | .word => 7

theorem Form.rank_injective : Function.Injective Form.rank := by
  intro form form' h
  cases form <;> cases form' <;> first | rfl | cases h

/-- How truth values are written. -/
def letters : Bool → List Char
  | true => ['T', 'r', 'u', 'e']
  | false => ['F', 'a', 'l', 's', 'e']

/-- A form matches in front of a text. What stands inside brackets goes by the inner rule; there are
no brackets if there is none. -/
inductive Matches (digits : Nat) (inner : Option (Rule ν τ)) :
    Form → List Char → Expr ν τ → List Char → Prop where
  -- Two dashes and the rest of the line, which is the comment, and all line breaks that follow.
  | comment {line breaks cs behind rest : List Char} :
      Run (fun c => !isLineBreak c) line cs behind → Run isLineBreak breaks behind rest →
      Matches digits inner .comment ('-' :: '-' :: cs) (.comment (String.ofList line)) rest
  -- The letters of a truth value.
  | boolean {value : Bool} {rest : List Char} :
      Matches digits inner .boolean (letters value ++ rest) (.bool value) rest
  -- A point and any character.
  | character {c : Char} {rest : List Char} :
      Matches digits inner .character ('.' :: c :: rest) (.chr c) rest
  -- A run of digits, which is the number they denote.
  | number {numeral cs rest : List Char} :
      numeral ≠ [] → Run Char.isDigit numeral cs rest → numeral.length ≤ digits →
      Matches digits inner .number cs (.num (Nat.ofDigitChars 10 numeral 0)) rest
  -- Square brackets around any number of terms.
  | quotation {rule : Rule ν τ} {gap cs body rest : List Char} {es : List (Expr ν τ)} :
      inner = some rule → Run isSkipped gap cs body → Sequence rule body es (']' :: rest) →
      Matches digits inner .quotation ('[' :: cs) (.quot es) rest
  -- Round brackets around two terms.
  | pair {rule : Rule ν τ} {gap cs body mid rest : List Char} {a b : Expr ν τ} :
      inner = some rule → Run isSkipped gap cs body → rule body a mid → rule mid b (')' :: rest) →
      Matches digits inner .pair ('(' :: cs) (.pair a b) rest
  -- A delimiter and everything up to where it stands next, which is the string.
  | string {d : Char} {text rest : List Char} :
      isDelimiter d = true → d ∉ text →
      Matches digits inner .string (d :: (text ++ d :: rest)) (.quot (text.map .chr)) rest
  -- A character that words begin with, and the word characters that follow.
  | word {c : Char} {name cs rest : List Char} :
      isWordStart c = true → Run isWordChar name cs rest →
      Matches digits inner .word (c :: cs) (.word (String.ofList (c :: name))) rest

/-- Some form matches, and none that comes before it does. -/
def First (digits : Nat) (inner : Option (Rule ν τ)) : Rule ν τ := fun cs e rest =>
  ∃ form, Matches digits inner form cs e rest ∧
    ∀ earlier : Form, earlier.rank < form.rank →
      ∀ e' rest', ¬ Matches digits inner earlier cs e' rest'

/-- A term with so many brackets inside each other at most, and numerals of so many digits. -/
def DerivesTerm (digits : Nat) : Nat → Rule ν τ
  | 0 => First digits none
  | depth + 1 => First digits (some (Spaced (DerivesTerm digits depth)))

/-- The rule for what stands inside brackets, if there may be any. -/
def inside (digits : Nat) : Nat → Option (Rule ν τ)
  | 0 => none
  | depth + 1 => some (Spaced (DerivesTerm digits depth))

/-- The whole text is a sequence of terms, which read as the expressions. -/
def Derives (depth digits : Nat) (text : List Char) (es : List (Expr ν τ)) : Prop :=
  ∃ gap body, Run isSkipped gap text body ∧
    Sequence (Spaced (DerivesTerm digits depth)) body es []

/-! ## Runs of characters -/

section Run

variable {p : Char → Bool} {token cs rest : List Char}

/-- A run is as long as it can be. -/
theorem run_iff : Run p token cs rest ↔ token = cs.takeWhile p ∧ rest = cs.dropWhile p := by
  constructor
  · intro h
    obtain ⟨rfl, htoken, hrest⟩ := h
    exact ⟨(takeWhile_append_stops htoken hrest).symm, (dropWhile_append_stops htoken hrest).symm⟩
  · intro h
    obtain ⟨rfl, rfl⟩ := h
    refine ⟨List.takeWhile_append_dropWhile.symm, List.all_eq_true.mp List.all_takeWhile, ?_⟩
    intro c cs' heq
    have hhead := List.head?_dropWhile_not p cs
    rw [heq] at hhead
    simpa using hhead

theorem run_takeWhile (p : Char → Bool) (cs : List Char) :
    Run p (cs.takeWhile p) cs (cs.dropWhile p) := run_iff.mpr ⟨rfl, rfl⟩

theorem Run.unique {token' rest' : List Char} (h : Run p token cs rest)
    (h' : Run p token' cs rest') : token = token' ∧ rest = rest' := by
  obtain ⟨rfl, rfl⟩ := run_iff.mp h
  obtain ⟨rfl, rfl⟩ := run_iff.mp h'
  exact ⟨rfl, rfl⟩

/-- What stands before the first occurrence of a character. -/
theorem run_until {d : Char} (h : d ∉ token) :
    Run (· ≠ d) token (token ++ d :: rest) (d :: rest) := by
  refine ⟨rfl, fun c hc => ?_, stops_cons.mpr (by simp)⟩
  simp only [decide_eq_true_eq]
  rintro rfl
  exact h hc

theorem Run.length_le (h : Run p token cs rest) : rest.length ≤ cs.length := by
  rw [h.1, List.length_append]
  omega

/-- What is passed over is passed over by the reader. -/
theorem Run.skip_eq (h : Run isSkipped token cs rest) : skip cs = rest := (run_iff.mp h).2.symm

end Run

/-! ## Terms and what is inside them -/

section Inside

variable {digits depth : Nat} {cs rest : List Char} {e : Expr ν τ}

theorem derivesTerm_iff :
    DerivesTerm digits depth cs e rest ↔ First digits (inside digits depth) cs e rest := by
  cases depth <;> rfl

theorem inside_eq_some {rule : Rule ν τ} (h : inside digits depth = some rule) :
    ∃ less, depth = less + 1 ∧ rule = Spaced (DerivesTerm digits less) := by
  cases depth with
  | zero => cases h
  | succ less =>
    cases h
    exact ⟨less, rfl, rfl⟩

end Inside

/-! ## Every term takes something from the text -/

/-- What stands in front of a text by the rule is not nothing. -/
def Shortens (rule : Rule ν τ) : Prop :=
  ∀ ⦃cs e rest⦄, rule cs e rest → rest.length < cs.length

section Length

variable {rule : Rule ν τ} {cs rest : List Char} {e : Expr ν τ} {es : List (Expr ν τ)}

theorem Shortens.ne_nil (hrule : Shortens rule) (h : rule cs e rest) : cs ≠ [] :=
  List.ne_nil_of_length_pos (Nat.zero_lt_of_lt (hrule h))

theorem Sequence.length_le (hrule : Shortens rule) (h : Sequence rule cs es rest) :
    rest.length + es.length ≤ cs.length := by
  induction h with
  | nil => simp
  | cons he _ ih =>
    have := hrule he
    simp only [List.length_cons]
    omega

theorem Spaced.shortens (hrule : Shortens rule) : Shortens (Spaced rule) := by
  intro cs e rest h
  obtain ⟨gap, behind, he, hgap⟩ := h
  exact Nat.lt_of_le_of_lt hgap.length_le (hrule he)

theorem Matches.length_lt {digits : Nat} {inner : Option (Rule ν τ)} {form : Form}
    (hinner : ∀ rule, inner = some rule → Shortens rule)
    (h : Matches digits inner form cs e rest) : rest.length < cs.length := by
  cases h with
  | comment hl hb =>
    have := hl.length_le
    have := hb.length_le
    simp only [List.length_cons]
    omega
  | @boolean value =>
    cases value <;> simp only [letters, List.cons_append, List.nil_append, List.length_cons] <;>
      omega
  | character =>
    simp only [List.length_cons]
    omega
  | number hne hr =>
    have := List.length_pos_iff.mpr hne
    rw [hr.1, List.length_append]
    omega
  | quotation hrule hgap hitems =>
    have := hgap.length_le
    have := hitems.length_le (hinner _ hrule)
    simp only [List.length_cons] at this ⊢
    omega
  | pair hrule hgap ha hb =>
    have := hgap.length_le
    have := hinner _ hrule ha
    have := hinner _ hrule hb
    simp only [List.length_cons] at this ⊢
    omega
  | string =>
    simp only [List.length_cons, List.length_append]
    omega
  | word hc hr =>
    have := hr.length_le
    simp only [List.length_cons]
    omega

theorem DerivesTerm.shortens (digits depth : Nat) :
    Shortens (DerivesTerm (ν := ν) (τ := τ) digits depth) := by
  induction depth with
  | zero =>
    intro cs e rest h
    obtain ⟨form, hmatch, _⟩ := h
    exact hmatch.length_lt fun rule hrule => by cases hrule
  | succ depth ih =>
    intro cs e rest h
    obtain ⟨form, hmatch, _⟩ := h
    refine hmatch.length_lt fun rule hrule => ?_
    cases hrule
    exact Spaced.shortens ih

end Length

/-! ## What a form begins with -/

/-- Whether a term of the form begins with the character. -/
def Form.begins : Form → Char → Bool
  | .comment, c => c = '-'
  | .boolean, c => c = 'T' || c = 'F'
  | .character, c => c = '.'
  | .number, c => c.isDigit
  | .quotation, c => c = '['
  | .pair, c => c = '('
  | .string, c => isDelimiter c
  | .word, c => isWordStart c

variable {digits : Nat} {inner : Option (Rule ν τ)} {form : Form} {cs rest : List Char}
  {e : Expr ν τ}

theorem Matches.begins (h : Matches digits inner form cs e rest) :
    ∃ c more, cs = c :: more ∧ form.begins c = true := by
  cases h with
  | number hne hrun =>
    obtain ⟨c, more, rfl⟩ := List.exists_cons_of_ne_nil hne
    exact ⟨c, more ++ rest, hrun.1, hrun.2.1 c List.mem_cons_self⟩
  | @boolean value =>
    cases value
    · exact ⟨_, _, rfl, rfl⟩
    · exact ⟨_, _, rfl, rfl⟩
  | string hd => exact ⟨_, _, rfl, hd⟩
  | word hc => exact ⟨_, _, rfl, hc⟩
  | _ => exact ⟨_, _, rfl, rfl⟩

/-- What a form other than a word begins with, no form before it begins with. -/
theorem Form.begins_disjoint {earlier : Form} {c : Char} (h : earlier.rank < form.rank)
    (hword : form ≠ .word) (hf : form.begins c = true) : earlier.begins c = false := by
  revert h
  cases form with
  | word => exact absurd rfl hword
  | number =>
    intro h
    have hne : ∀ d : Char, d.isDigit = false → c ≠ d := by
      rintro d hd rfl
      exact absurd hf (by rw [begins, hd]; decide)
    cases earlier with
    | comment => exact decide_eq_false (hne '-' rfl)
    | boolean => simp only [begins, hne 'T' rfl, hne 'F' rfl, decide_false, Bool.or_self]
    | character => exact decide_eq_false (hne '.' rfl)
    | _ => exact absurd h (by decide)
  | boolean =>
    simp only [begins, Bool.or_eq_true, decide_eq_true_eq] at hf
    rcases hf with rfl | rfl <;> cases earlier <;> decide
  | string =>
    simp only [begins, isDelimiter, Bool.or_eq_true, decide_eq_true_eq] at hf
    rcases hf with (rfl | rfl) | rfl <;> cases earlier <;> decide
  | _ =>
    obtain rfl := of_decide_eq_true hf
    cases earlier <;> decide

/-- Besides words, only comments and truth values begin as words do. -/
theorem Form.begins_of_isWordStart {c : Char} (hc : isWordStart c = true)
    (hf : form.begins c = true) : form = .word ∨ form = .comment ∨ form = .boolean := by
  obtain ⟨hchar, hdot, hdigit⟩ := isWordStart_iff.mp hc
  obtain ⟨_, _, hopen, _, hround, _, hdelimiter⟩ := isWordChar_iff.mp hchar
  cases form with
  | word => exact .inl rfl
  | comment => exact .inr (.inl rfl)
  | boolean => exact .inr (.inr rfl)
  | character => exact absurd (of_decide_eq_true hf) hdot
  | number => exact absurd hf (by rw [begins, hdigit]; decide)
  | quotation => exact absurd (of_decide_eq_true hf) hopen
  | pair => exact absurd (of_decide_eq_true hf) hround
  | string => exact absurd hf (by rw [begins, hdelimiter]; decide)

/-- **The order decides what is a word, and nothing else.** -/
theorem first_iff : First digits inner cs e rest ↔
    ∃ form, Matches digits inner form cs e rest ∧
      (form = .word → ¬ ['-', '-'] <+: cs ∧ ∀ value, ¬ letters value <+: cs) := by
  constructor
  · intro h
    obtain ⟨form, hmatch, hfirst⟩ := h
    refine ⟨form, hmatch, ?_⟩
    rintro rfl
    constructor
    · rintro ⟨more, rfl⟩
      exact hfirst .comment (by decide) _ _ (.comment (run_takeWhile _ _) (run_takeWhile _ _))
    · rintro value ⟨more, rfl⟩
      exact hfirst .boolean (by decide) _ _ .boolean
  · intro h
    obtain ⟨form, hmatch, hword⟩ := h
    refine ⟨form, hmatch, fun earlier hrank e' rest' hearlier => ?_⟩
    obtain ⟨c, more, rfl, hc⟩ := hmatch.begins
    obtain ⟨d, behind, heq, hd⟩ := hearlier.begins
    obtain ⟨rfl, rfl⟩ := List.cons.inj heq
    by_cases hform : form = .word
    · subst hform
      obtain ⟨hdash, hletters⟩ := hword rfl
      rcases Form.begins_of_isWordStart hc hd with rfl | rfl | rfl
      · exact absurd hrank (by decide)
      · cases hearlier
        exact hdash ⟨_, rfl⟩
      · generalize htext : c :: more = text at hearlier hletters
        cases hearlier
        exact hletters _ (List.prefix_append _ _)
    · rw [Form.begins_disjoint hrank hform hc] at hd
      cases hd

end Grammar
end Leftward
