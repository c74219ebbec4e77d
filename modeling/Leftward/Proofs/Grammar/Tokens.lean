import Leftward.Grammar.Reader

/-!
# Tokens — which alternative reads what

The alternatives for a term are tried in order, so to say what is read at a position is to say
that every alternative before the right one fails there. All of them are told apart by the first
character, except that a comment and a boolean begin like words. **A word is therefore not just a
run of word characters**: it must not begin like one of those (`IsWord`).

A token ends where its class of characters ends. What may follow a token is stated as what must
not: no further character of the class in front (`Stops`).
-/

namespace Leftward
namespace Grammar

open Text

/-- No character of the class is in front. -/
def Stops (p : Char → Bool) (rest : List Char) : Prop := ∀ c cs, rest = c :: cs → p c = false

theorem stops_nil (p : Char → Bool) : Stops p [] := by
  intro c cs h
  cases h

theorem stops_cons {p : Char → Bool} {c : Char} {cs : List Char} :
    Stops p (c :: cs) ↔ p c = false := by
  constructor
  · intro h
    exact h c cs rfl
  · intro h _ _ h
    obtain ⟨rfl, rfl⟩ := h
    exact h

theorem takeWhile_append_stops {p : Char → Bool} {token rest : List Char}
    (ht : ∀ c ∈ token, p c = true) (hr : Stops p rest) :
    (token ++ rest).takeWhile p = token := by
  rw [List.takeWhile_append_of_pos ht]
  cases rest with
  | nil => simp
  | cons c cs => simp [stops_cons.mp hr]

theorem dropWhile_append_stops {p : Char → Bool} {token rest : List Char}
    (ht : ∀ c ∈ token, p c = true) (hr : Stops p rest) :
    (token ++ rest).dropWhile p = rest := by
  rw [List.dropWhile_append_of_pos ht]
  cases rest with
  | nil => simp
  | cons c cs => simp [stops_cons.mp hr]

/-- A word of the language: it begins and goes on as words do, and nothing that is read before
words begins it. -/
def IsWord (name : List Char) : Prop :=
  (∃ c cs, name = c :: cs ∧ isWordStart c = true ∧ ∀ d ∈ cs, isWordChar d = true) ∧
    ¬ ['-', '-'] <+: name ∧ ¬ ['T', 'r', 'u', 'e'] <+: name ∧ ¬ ['F', 'a', 'l', 's', 'e'] <+: name

theorem isWord_cons {c : Char} {cs : List Char} :
    IsWord (c :: cs) ↔ (isWordStart c = true ∧ ∀ d ∈ cs, isWordChar d = true) ∧
      ¬ ['-', '-'] <+: c :: cs ∧ ¬ ['T', 'r', 'u', 'e'] <+: c :: cs ∧
      ¬ ['F', 'a', 'l', 's', 'e'] <+: c :: cs := by
  refine and_congr_left fun _ => ⟨?_, ?_⟩
  · intro h
    obtain ⟨_, _, heq, hc, hcs⟩ := h
    cases heq
    exact ⟨hc, hcs⟩
  · intro h
    obtain ⟨hc, hcs⟩ := h
    exact ⟨c, cs, rfl, hc, hcs⟩

instance : DecidablePred IsWord
  | [] => isFalse fun h => by
    obtain ⟨_, _, heq, _⟩ := h.1
    cases heq
  | c :: cs =>
    decidable_of_iff ((isWordStart c = true ∧ cs.all isWordChar = true) ∧
      ¬ ['-', '-'] <+: c :: cs ∧ ¬ ['T', 'r', 'u', 'e'] <+: c :: cs ∧
      ¬ ['F', 'a', 'l', 's', 'e'] <+: c :: cs) (by rw [isWord_cons, List.all_eq_true])

/-! ## Classes of characters -/

/-- What a comment, a boolean, a character or a number begins with. -/
def isTokenStart (c : Char) : Bool := c = '-' || c = 'T' || c = 'F' || c = '.' || c.isDigit

theorem isWordChar_of_isWordStart {c : Char} (h : isWordStart c = true) : isWordChar c = true := by
  simp only [isWordStart, Bool.and_eq_true] at h
  exact h.1

/-- What a word begins with begins nothing else that is told by one character. -/
theorem isWordStart_iff {c : Char} :
    isWordStart c = true ↔
      isWordChar c = true ∧ c ≠ '.' ∧ c.isDigit = false := by
  simp [isWordStart, Bool.and_eq_true]

theorem isWordChar_iff {c : Char} :
    isWordChar c = true ↔ isBlank c = false ∧ 0x20 ≤ c.toNat ∧ c ≠ '[' ∧ c ≠ ']' ∧ c ≠ '(' ∧
      c ≠ ')' ∧ isDelimiter c = false := by
  simp only [isWordChar, Bool.not_eq_true', Bool.or_eq_false_iff, decide_eq_false_iff_not,
    Nat.not_lt, ne_eq, and_assoc]

/-! ## Alternatives that fail -/

namespace Read

variable {α : Type}

@[simp] theorem unmatched_orElse (r : Read α) : ((unmatched : Read α) <|> r) = r := rfl

@[simp] theorem matched_orElse (value : α) (rest : List Char) (r : Read α) :
    ((matched value rest) <|> r) = matched value rest := rfl

@[simp] theorem tooDeep_orElse (r : Read α) : ((tooDeep : Read α) <|> r) = tooDeep := rfl

/-- What matches is the first alternative, or the second where the first does not. -/
theorem orElse_eq_matched {first second : Read α} {value : α} {rest : List Char} :
    (first <|> second) = matched value rest ↔
      first = matched value rest ∨ (first = unmatched ∧ second = matched value rest) := by
  cases first <;> simp

end Read

theorem comment_eq_unmatched_iff {cs : List Char} :
    comment cs = .unmatched ↔ ¬ ['-', '-'] <+: cs := by
  unfold comment
  split
  · simp
  · rename_i h
    refine ⟨fun _ => ?_, fun _ => rfl⟩
    intro h
    obtain ⟨rest, rfl⟩ := h
    exact h rest rfl

theorem boolean_eq_unmatched_iff {cs : List Char} :
    boolean cs = .unmatched ↔
      ¬ ['T', 'r', 'u', 'e'] <+: cs ∧ ¬ ['F', 'a', 'l', 's', 'e'] <+: cs := by
  unfold boolean
  split
  · simp
  · simp
  · rename_i ht hf
    refine ⟨fun _ => ⟨?_, ?_⟩, fun _ => rfl⟩
    · intro h
      obtain ⟨rest, rfl⟩ := h
      exact ht rest rfl
    · intro h
      obtain ⟨rest, rfl⟩ := h
      exact hf rest rfl

section Head

variable {c : Char} {cs : List Char}

theorem comment_of_ne (h : c ≠ '-') : comment (c :: cs) = .unmatched := by
  rw [comment_eq_unmatched_iff]
  simp [Ne.symm h]

theorem boolean_of_ne (ht : c ≠ 'T') (hf : c ≠ 'F') : boolean (c :: cs) = .unmatched := by
  rw [boolean_eq_unmatched_iff]
  simp [Ne.symm ht, Ne.symm hf]

theorem character_of_ne (h : c ≠ '.') : character (c :: cs) = .unmatched := by
  unfold character
  split
  · rename_i heq
    exact absurd (List.cons.inj heq).1 h
  · rfl

theorem number_of_not_isDigit (h : c.isDigit = false) : number (c :: cs) = .unmatched := by
  simp [number, h]

theorem quotation_of_ne (h : c ≠ '[') (fuel : Nat) (inner : Option (List Char → Read Node)) :
    quotation fuel inner (c :: cs) = .unmatched := by
  unfold quotation
  split
  · rename_i heq
    exact absurd (List.cons.inj heq).1 h
  · rfl

theorem pair_of_ne (h : c ≠ '(') (inner : Option (List Char → Read Node)) :
    pair inner (c :: cs) = .unmatched := by
  unfold pair
  split
  · rename_i heq
    exact absurd (List.cons.inj heq).1 h
  · rfl

theorem string_of_not_isDelimiter (h : isDelimiter c = false) :
    string (c :: cs) = .unmatched := by
  simp [string, h]

end Head

/-! ## Alternatives that match -/

variable {fuel : Nat} {inner : Option (List Char → Read Node)} {cs rest : List Char}

theorem alternatives_character (c : Char) :
    alternatives fuel inner ('.' :: c :: rest) = .matched (.leaf .character ['.', c]) rest := by
  have hcom : comment ('.' :: c :: rest) = .unmatched := comment_of_ne (by simp)
  have hbool : boolean ('.' :: c :: rest) = .unmatched := boolean_of_ne (by simp) (by simp)
  simp only [alternatives, hcom, hbool, character, Read.unmatched_orElse, Read.matched_orElse]

theorem alternatives_number {digits : List Char} (hne : digits ≠ [])
    (hd : ∀ c ∈ digits, c.isDigit = true) (hr : Stops Char.isDigit rest) :
    alternatives fuel inner (digits ++ rest) = .matched (.leaf .number digits) rest := by
  obtain ⟨c, cs, rfl⟩ := List.exists_cons_of_ne_nil hne
  have hc : c.isDigit = true := hd c List.mem_cons_self
  have hcom : comment (c :: cs ++ rest) = .unmatched := comment_of_ne (by rintro rfl; cases hc)
  have hbool : boolean (c :: cs ++ rest) = .unmatched :=
    boolean_of_ne (by rintro rfl; cases hc) (by rintro rfl; cases hc)
  have hchr : character (c :: cs ++ rest) = .unmatched :=
    character_of_ne (by rintro rfl; cases hc)
  have hnum : number (c :: cs ++ rest) = .matched (.leaf .number (c :: cs)) rest := by
    simp only [number, takeWhile_append_stops hd hr, dropWhile_append_stops hd hr]
  simp only [alternatives, hcom, hbool, hchr, hnum, Read.unmatched_orElse, Read.matched_orElse]

theorem alternatives_of_not_isTokenStart {c : Char} (h : isTokenStart c = false) :
    alternatives fuel inner (c :: cs) =
      (quotation fuel inner (c :: cs) <|> pair inner (c :: cs) <|> string (c :: cs)
        <|> word (c :: cs)) := by
  simp only [isTokenStart, Bool.or_eq_false_iff, decide_eq_false_iff_not] at h
  obtain ⟨⟨⟨⟨hdash, htrue⟩, hfalse⟩, hdot⟩, hdigit⟩ := h
  simp only [alternatives, comment_of_ne hdash, boolean_of_ne htrue hfalse, character_of_ne hdot,
    number_of_not_isDigit hdigit, Read.unmatched_orElse]

theorem alternatives_quotation {node : Node}
    (h : quotation fuel inner ('[' :: cs) = .matched node rest) :
    alternatives fuel inner ('[' :: cs) = .matched node rest := by
  rw [alternatives_of_not_isTokenStart rfl, h, Read.matched_orElse]

theorem alternatives_pair {node : Node} (h : pair inner ('(' :: cs) = .matched node rest) :
    alternatives fuel inner ('(' :: cs) = .matched node rest := by
  rw [alternatives_of_not_isTokenStart rfl, quotation_of_ne (by simp), Read.unmatched_orElse, h,
    Read.matched_orElse]

theorem alternatives_string {d : Char} {text : List Char} (hd : isDelimiter d = true)
    (ht : d ∉ text) :
    alternatives fuel inner (d :: (text ++ d :: rest)) =
      .matched (.leaf .string (d :: (text ++ [d]))) rest := by
  have hother : isTokenStart d = false ∧ d ≠ '[' ∧ d ≠ '(' := by
    simp only [isDelimiter, Bool.or_eq_true, decide_eq_true_eq] at hd
    rcases hd with (rfl | rfl) | rfl <;> exact ⟨rfl, by simp, by simp⟩
  have hin : ∀ c ∈ text, (decide (c ≠ d)) = true := by
    intro c hc
    simp only [decide_eq_true_eq]
    intro heq
    subst heq
    exact ht hc
  have hstop : Stops (fun c => decide (c ≠ d)) (d :: rest) := stops_cons.mpr (by simp)
  have hstr : string (d :: (text ++ d :: rest)) =
      .matched (.leaf .string (d :: (text ++ [d]))) rest := by
    simp only [string, hd, if_true, dropWhile_append_stops hin hstop,
      takeWhile_append_stops hin hstop]
  obtain ⟨hstart, hopen, hround⟩ := hother
  rw [alternatives_of_not_isTokenStart hstart, quotation_of_ne hopen, pair_of_ne hround, hstr]
  rfl

/-- What begins the text that follows a word on begins the word, if it is made of characters that
words hold. -/
theorem prefix_of_prefix_append {p name : List Char} (hp : p.all isWordChar = true)
    (hr : Stops isWordChar rest) (h : p <+: name ++ rest) : p <+: name := by
  obtain ⟨tail, htail⟩ := h
  rcases List.append_eq_append_iff.mp htail with ⟨more, rfl, _⟩ | ⟨more, rfl, hrest⟩
  · exact List.prefix_append p more
  · cases more with
    | nil => simp
    | cons c cs =>
      rw [List.cons_append] at hrest
      subst hrest
      have hc : isWordChar c = true := List.all_eq_true.mp hp c (by simp)
      rw [stops_cons.mp hr] at hc
      cases hc

theorem alternatives_word {name : List Char} (hw : IsWord name) (hr : Stops isWordChar rest) :
    alternatives fuel inner (name ++ rest) = .matched (.leaf .word name) rest := by
  obtain ⟨⟨c, cs, rfl, hc, hcs⟩, hdash, htrue, hfalse⟩ := hw
  obtain ⟨hchar, hdot, hdigit⟩ := isWordStart_iff.mp hc
  obtain ⟨_, _, hopen, _, hround, _, hdelim⟩ := isWordChar_iff.mp hchar
  have hcom : comment (c :: (cs ++ rest)) = .unmatched :=
    comment_eq_unmatched_iff.mpr fun h => hdash (prefix_of_prefix_append rfl hr h)
  have hbool : boolean (c :: (cs ++ rest)) = .unmatched :=
    boolean_eq_unmatched_iff.mpr
      ⟨fun h => htrue (prefix_of_prefix_append rfl hr h),
        fun h => hfalse (prefix_of_prefix_append rfl hr h)⟩
  have hword : word (c :: (cs ++ rest)) = .matched (.leaf .word (c :: cs)) rest := by
    simp only [word, hc, if_true, takeWhile_append_stops hcs hr, dropWhile_append_stops hcs hr]
  rw [List.cons_append]
  simp only [alternatives, hcom, hbool, character_of_ne hdot, number_of_not_isDigit hdigit,
    quotation_of_ne hopen, pair_of_ne hround, string_of_not_isDelimiter hdelim, hword,
    Read.unmatched_orElse]

/-- Nothing is read where the text ends or a bracket closes. -/
theorem alternatives_closing (h : rest = [] ∨ ∃ cs, rest = ']' :: cs ∨ rest = ')' :: cs) :
    alternatives fuel inner rest = .unmatched := by
  rcases h with rfl | ⟨cs, rfl | rfl⟩
  · rfl
  · rfl
  · rfl

end Grammar
end Leftward
