import Leftward.Proofs.Grammar.Exact

/-!
# Texts one below the other

A token can be longer in a longer text: a word goes on, a string that was open is closed. **Where
the text read on its own and a line feed comes next, none is** (`DerivesTerm.joins`). The line feed
ends a word, a number and the line of a comment; characters, strings and brackets had ended before.
Only the line breaks behind a comment go on, over the line feed and those that follow it, and they
would have been passed over anyway. So what is said is not where a term ends but from where on the
reading goes on.

A text that reads on its own thus reads the same above another, which is read as if it stood alone,
**with its failure, if it has one** (`parse_above`).
-/

namespace Leftward
namespace Grammar

open Text

variable {ν τ : Type} {cs rest more : List Char}

/-! ## What a line feed ends -/

/-- The text with another one below it. -/
def above (cs more : List Char) : List Char := cs ++ '\n' :: more

theorem Run.extend {p : Char → Bool} {token : List Char} (h : Run p token cs rest)
    (hbreak : p '\n' = false) (more : List Char) :
    Run p token (above cs more) (above rest more) := by
  obtain ⟨rfl, htoken, hrest⟩ := h
  refine ⟨List.append_assoc _ _ _, htoken, ?_⟩
  cases rest with
  | nil => exact stops_cons.mpr hbreak
  | cons c rest => exact stops_cons.mpr (stops_cons.mp hrest)

theorem isSkipped_of_isLineBreak {c : Char} (h : isLineBreak c = true) : isSkipped c = true := by
  simp only [isSkipped, h, Bool.or_true]

theorem skip_append {gap : List Char} (h : ∀ c ∈ gap, isSkipped c = true) :
    skip (gap ++ cs) = skip cs := List.dropWhile_append_of_pos h

/-- What is passed over in a text is passed over in the longer text as well. -/
theorem skip_above_append {gap : List Char} (h : ∀ c ∈ gap, isSkipped c = true) :
    skip (above (gap ++ rest) more) = skip (above rest more) := by
  rw [above, above, List.append_assoc]
  exact skip_append h

theorem Run.skip_above {gap : List Char} (h : Run isSkipped gap cs rest) (more : List Char) :
    skip (above cs more) = skip (above rest more) := by
  rw [h.1]
  exact skip_above_append h.2.1

/-- Nothing is passed over in front of a text that begins with something else. -/
theorem skip_above_of_stops (h : Stops isSkipped cs) (hne : cs ≠ []) :
    skip (above cs more) = above cs more := by
  obtain ⟨c, behind, rfl⟩ := List.exists_cons_of_ne_nil hne
  exact Expr.skip_of_stops (stops_cons.mpr (stops_cons.mp h))

/-! ## Terms -/

/-- What stands in front of a text by the rule stands in front of it above any other text, and the
reading goes on at the same place. -/
def Joins (more : List Char) (rule : Rule ν τ) : Prop :=
  ∀ ⦃cs e rest⦄, rule cs e rest →
    ∃ behind, rule (above cs more) e behind ∧ skip behind = skip (above rest more)

section Terms

variable {rule : Rule ν τ} {e : Expr ν τ} {es : List (Expr ν τ)}

theorem Spaced.stops (h : Spaced rule cs e rest) : Stops isSkipped rest := by
  obtain ⟨_, _, _, hgap⟩ := h
  exact hgap.2.2

theorem Joins.spaced (hrule : Joins more rule) (h : Spaced rule cs e rest) :
    Spaced rule (above cs more) e (skip (above rest more)) := by
  obtain ⟨gap, mid, he, hgap⟩ := h
  obtain ⟨behind, hbehind, hskip⟩ := hrule he
  rw [← hgap.skip_above, ← hskip]
  exact .skip hbehind

theorem Joins.sequence (hrule : Joins more rule) (hshort : Shortens rule)
    (h : Sequence (Spaced rule) cs es rest) (hstops : Stops isSkipped cs) :
    Sequence (Spaced rule) (skip (above cs more)) es (skip (above rest more)) := by
  induction h with
  | nil => exact .nil
  | cons he _ ih =>
    rw [skip_above_of_stops hstops ((Spaced.shortens hshort).ne_nil he)]
    exact .cons (hrule.spaced he) (ih he.stops)

/-- No form of a term reads another way above another text. -/
theorem Matches.joins {digits : Nat} {inner : Option (Rule ν τ)} {form : Form}
    (hinner : ∀ rule, inner = some rule → ∃ item, rule = Spaced item ∧ Joins more item ∧
      Shortens item)
    (h : Matches digits inner form cs e rest) :
    ∃ behind, Matches digits inner form (above cs more) e behind ∧
      skip behind = skip (above rest more) := by
  cases h with
  | @comment line breaks cs mid _ hl hb =>
    have hafter := run_takeWhile isLineBreak (above mid more)
    refine ⟨_, .comment (hl.extend rfl more) hafter, ?_⟩
    -- All line breaks are passed over, those that the comment takes along in either text too.
    calc skip ((above mid more).dropWhile isLineBreak)
        = skip (above mid more) := by
          rw [← skip_append fun c hc => isSkipped_of_isLineBreak (hafter.2.1 c hc), ← hafter.1]
      _ = skip (above rest more) := by
          rw [hb.1, skip_above_append fun c hc => isSkipped_of_isLineBreak (hb.2.1 c hc)]
  | @boolean value =>
    refine ⟨above rest more, ?_, rfl⟩
    rw [above, List.append_assoc]
    exact .boolean
  | character => exact ⟨_, .character, rfl⟩
  | number hne hr hlen => exact ⟨_, .number hne (hr.extend rfl more) hlen, rfl⟩
  | @quotation _ _ cs body _ _ hrule hgap hitems =>
    obtain ⟨item, rfl, hjoins, hshort⟩ := hinner _ hrule
    refine ⟨_, .quotation hrule (run_takeWhile isSkipped (above cs more)) ?_, rfl⟩
    have hlonger := hjoins.sequence hshort hitems hgap.2.2
    rwa [← hgap.skip_above] at hlonger
  | @pair _ _ cs body mid _ _ _ hrule hgap ha hb =>
    obtain ⟨item, rfl, hjoins, hshort⟩ := hinner _ hrule
    refine ⟨_, .pair hrule (run_takeWhile isSkipped (above cs more)) ?_ (hjoins.spaced hb), rfl⟩
    have hbody := (Spaced.shortens hshort).ne_nil ha
    have hmid := (Spaced.shortens hshort).ne_nil hb
    have hlonger := hjoins.spaced ha
    rwa [skip_above_of_stops ha.stops hmid, ← skip_above_of_stops hgap.2.2 hbody,
      ← hgap.skip_above] at hlonger
  | @string d text _ hd htext =>
    refine ⟨above rest more, ?_, rfl⟩
    rw [above, List.cons_append, List.append_assoc]
    exact .string hd htext
  | word hc hr => exact ⟨_, .word hc (hr.extend rfl more), rfl⟩

/-- **No term reads another way above another text.** -/
theorem DerivesTerm.joins (digits depth : Nat) (more : List Char) :
    Joins more (DerivesTerm (ν := ν) (τ := τ) digits depth) := by
  induction depth using Nat.strongRecOn with
  | ind depth ih =>
    intro cs e rest h
    obtain ⟨form, hmatch, hword⟩ := first_iff.mp (derivesTerm_iff.mp h)
    have hinner : ∀ rule, inside (ν := ν) (τ := τ) digits depth = some rule →
        ∃ item, rule = Spaced item ∧ Joins more item ∧ Shortens item := by
      intro rule hrule
      obtain ⟨less, rfl, rfl⟩ := inside_eq_some hrule
      exact ⟨_, rfl, ih less (Nat.lt_succ_self less), DerivesTerm.shortens digits less⟩
    obtain ⟨behind, hbehind, hskip⟩ := hmatch.joins hinner
    refine ⟨behind, derivesTerm_iff.mpr (first_iff.mpr ⟨form, hbehind, fun hform => ?_⟩), hskip⟩
    -- The line feed belongs neither to the dashes of a comment nor to a truth value.
    have hbreak : Stops isWordChar ('\n' :: more) := stops_cons.mpr rfl
    obtain ⟨hdash, hletters⟩ := hword hform
    refine ⟨fun hp => hdash (prefix_of_prefix_append rfl hbreak hp), fun value hp => ?_⟩
    exact hletters value (prefix_of_prefix_append (by cases value <;> rfl) hbreak hp)

end Terms

/-! ## Programs -/

variable {room : Nat} {text : List Char} {es : List (Expr ν τ)}

/-- What is read of a text below one that reads on its own is what is read of it alone. -/
theorem terms_above (h : parse text room = .ok es) (more : List Char) :
    ∃ nodes, elaborateAll nodes = .ok (es.map .expr) ∧
      terms (above text more).length (above text more) room =
        (terms more.length more room).map fun found => (nodes ++ found.1, found.2) := by
  obtain ⟨gap, body, hgap, hbody⟩ := derives_of_parse h
  have hshort := DerivesTerm.shortens (ν := ν) (τ := τ) Decimal.maxDigits room
  have hlonger := (DerivesTerm.joins Decimal.maxDigits room more).sequence hshort hbody hgap.2.2
  have hbelow : skip (above [] more) = skip more := rfl
  rw [← hgap.skip_above, hbelow] at hlonger
  -- Each of the terms above takes at least one character, so the fuel left is enough for the rest.
  have hcount := hlonger.length_le (Spaced.shortens hshort)
  have hlength := skip_length_le (above text more)
  have hmore := skip_length_le more
  have htotal : (above text more).length = text.length + (more.length + 1) := List.length_append
  generalize (above text more).length = fuel at hlength htotal
  obtain ⟨count, rfl⟩ : ∃ count, fuel = es.length + count := Nat.exists_eq_add_of_le (by omega)
  obtain ⟨nodes, hnodes, hmany⟩ := hlonger.many hshort
    (fun hlen hterm => hterm.reads (Nat.le_refl _) (Nat.le_refl room) hlen) hlength count
  refine ⟨nodes, hnodes, ?_⟩
  rw [terms, terms, hmany, term_fuel.many (by omega) hmore (by omega) hmore]

theorem mapM_expr?_append (es : List (Expr ν τ)) (readings : List (Reading ν τ)) :
    (es.map Reading.expr ++ readings).mapM Reading.expr? =
      (readings.mapM Reading.expr?).map (es ++ ·) := by
  induction es with
  | nil => simp only [List.map_nil, List.nil_append, Option.map_id']
  | cons e es ih =>
    rw [List.map_cons, List.cons_append, Expr.mapM_cons_option, ih]
    simp only [Reading.expr?, Option.bind_some, Option.map_map, Function.comp_def, List.cons_append]

theorem meaning_append {nodes : List Node} (h : elaborateAll nodes = .ok (es.map .expr))
    (others : List Node) : meaning (nodes ++ others) = (meaning others).map (es ++ ·) := by
  rw [meaning, meaning, elaborateAll_append h]
  cases elaborateAll (ν := ν) (τ := τ) others with
  | error failure => rfl
  | ok readings =>
    simp only [Except.map, mapM_expr?_append]
    cases readings.mapM Reading.expr? <;> rfl

/-- **A text that reads on its own reads the same above any other**, which reads as if it stood
alone or fails as it does alone. -/
theorem parse_above (h : parse text room = .ok es) (more : List Char) :
    parse (above text more) room = (parse more room).map (es ++ ·) := by
  obtain ⟨nodes, hnodes, hterms⟩ := terms_above h more
  rw [parse_eq_meaning, parse_eq_meaning, hterms]
  cases terms more.length more room with
  | none => rfl
  | some found =>
    obtain ⟨others, rest⟩ := found
    simp only [Option.map_some, List.append_assoc, meaning_append hnodes]

end Grammar
end Leftward
