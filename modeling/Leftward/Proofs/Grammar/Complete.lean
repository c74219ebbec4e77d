import Leftward.Proofs.Grammar.RoundTrip
import Leftward.Proofs.Grammar.Rules

/-!
# What the rules derive is read

A derivation says of each term where it stands and what it is. The reader comes to the same place,
for **no alternative before the right one matches there**, and it reads the same. The induction is
on how many brackets may stand inside each other (`DerivesTerm.reads`): what stands in a bracket
has one less, and the reader's room for it has one less too. A sequence is read together with what
stands behind it (`Sequence.many`), so that the reading of a text can be cut where a derivation
ends, which need not be where the text does.
-/

namespace Leftward
namespace Grammar

open Text

variable {ν τ : Type} {cs rest : List Char} {e : Expr ν τ} {es : List (Expr ν τ)}

/-! ## Nodes side by side -/

/-- Readings that are all expressions. -/
theorem mapM_expr?_eq_some {readings : List (Reading ν τ)}
    (h : readings.mapM Reading.expr? = some es) : readings = es.map .expr := by
  induction readings generalizing es with
  | nil =>
    cases h
    rfl
  | cons reading readings ih =>
    rw [Expr.mapM_cons_option] at h
    obtain ⟨e, he, h⟩ := Option.bind_eq_some_iff.mp h
    obtain ⟨others, hothers, rfl⟩ := Option.map_eq_some_iff.mp h
    rw [ih hothers, List.map_cons]
    cases reading with
    | expr x =>
      cases he
      rfl
    | _ => cases he

theorem elaborateAll_cons_eq_ok {node : Node} {nodes : List Node} {readings : List (Reading ν τ)}
    (h : elaborateAll (node :: nodes) = .ok readings) :
    ∃ reading others, elaborate node = .ok reading ∧ elaborateAll nodes = .ok others ∧
      readings = reading :: others := by
  rw [elaborateAll] at h
  split at h
  · cases h
  · rename_i reading hreading
    cases hothers : elaborateAll (ν := ν) (τ := τ) nodes with
    | error failure =>
      rw [hothers] at h
      cases h
    | ok others =>
      rw [hothers] at h
      cases h
      exact ⟨reading, others, hreading, rfl, rfl⟩

theorem elaborateAll_append {before behind : List Node} {readings : List (Reading ν τ)}
    (h : elaborateAll before = .ok readings) :
    elaborateAll (before ++ behind) = (elaborateAll behind).map (readings ++ ·) := by
  induction before generalizing readings with
  | nil =>
    cases h
    cases hbehind : elaborateAll (ν := ν) (τ := τ) behind <;> simp [hbehind, Except.map]
  | cons node before ih =>
    obtain ⟨reading, others, hreading, hothers, rfl⟩ := elaborateAll_cons_eq_ok h
    rw [List.cons_append, elaborateAll, hreading, ih hothers]
    cases elaborateAll (ν := ν) (τ := τ) behind <;> rfl

/-! ## Tokens that are not words -/

theorem trimBreaks_append {line breaks : List Char} (hl : ∀ c ∈ line, isLineBreak c = false)
    (hb : ∀ c ∈ breaks, isLineBreak c = true) : trimBreaks (line ++ breaks) = line := by
  have hstops : Stops isLineBreak line.reverse := by
    intro c cs heq
    exact hl c (List.mem_reverse.mp (heq ▸ List.mem_cons_self))
  rw [trimBreaks, List.reverse_append, dropWhile_append_stops (by simpa using hb) hstops,
    List.reverse_reverse]

theorem elaborate_comment {line breaks : List Char} (hl : ∀ c ∈ line, isLineBreak c = false)
    (hb : ∀ c ∈ breaks, isLineBreak c = true) :
    elaborate (ν := ν) (τ := τ) (.leaf .comment ('-' :: '-' :: (line ++ breaks))) =
      .ok (.expr (.comment (String.ofList line))) := by
  simp only [Node.leaf, elaborate, elaborateText, String.toList_ofList, List.drop_succ_cons,
    List.drop_zero, trimBreaks_append hl hb, Except.map]

theorem elaborate_number {numeral : List Char} (hne : numeral ≠ [])
    (hd : ∀ c ∈ numeral, c.isDigit = true) (hlen : numeral.length ≤ Decimal.maxDigits) :
    elaborate (ν := ν) (τ := τ) (.leaf .number numeral) =
      .ok (.expr (.num (Nat.ofDigitChars 10 numeral 0))) := by
  simp only [Node.leaf, elaborate, elaborateText, String.toList_ofList,
    Decimal.read_digits hne hd, if_pos hlen, Except.map]

theorem elaborate_string (d : Char) (text : List Char) :
    elaborate (ν := ν) (τ := τ) (.leaf .string (d :: (text ++ [d]))) =
      .ok (.expr (.quot (text.map .chr))) := by
  simp [Node.leaf, elaborate, elaborateText, Except.map]

variable {fuel room : Nat}

theorem Reads.comment {line breaks behind : List Char}
    (hl : Run (fun c => !isLineBreak c) line cs behind) (hb : Run isLineBreak breaks behind rest) :
    Reads (ν := ν) (τ := τ) fuel room ('-' :: '-' :: cs) (.comment (String.ofList line)) rest := by
  refine ⟨.leaf .comment ('-' :: '-' :: (line ++ breaks)), term_of_alternatives fun inner => ?_,
    elaborate_comment (by simpa using hl.2.1) hb.2.1⟩
  obtain ⟨rfl, rfl⟩ := run_iff.mp hl
  obtain ⟨rfl, rfl⟩ := run_iff.mp hb
  rfl

theorem Reads.boolean (value : Bool) :
    Reads (ν := ν) (τ := τ) fuel room (letters value ++ rest) (.bool value) rest := by
  refine ⟨.truth value, term_of_alternatives fun inner => ?_, rfl⟩
  cases value <;> rfl

theorem Reads.numeral {numeral : List Char} (hne : numeral ≠ [])
    (hr : Run Char.isDigit numeral cs rest) (hlen : numeral.length ≤ Decimal.maxDigits) :
    Reads (ν := ν) (τ := τ) fuel room cs (.num (Nat.ofDigitChars 10 numeral 0)) rest := by
  obtain ⟨rfl, hd, hstops⟩ := hr
  exact ⟨.leaf .number numeral, term_of_alternatives fun _ => alternatives_number hne hd hstops,
    elaborate_number hne hd hlen⟩

/-! ## What the rules derive is read -/

/-- Terms that can be read one by one are read one after the other, and then what is behind. -/
theorem Sequence.many {rule : Rule ν τ} (hshort : Shortens rule)
    (hread : ∀ {cs e rest}, cs.length ≤ fuel → rule cs e rest → Reads fuel room cs e rest)
    (h : Sequence (Spaced rule) cs es rest) (hfuel : cs.length ≤ fuel) (count : Nat) :
    ∃ nodes, elaborateAll nodes = .ok (es.map .expr) ∧
      many (fun cs => spaced (term fuel room cs)) (es.length + count) cs =
        (many (fun cs => spaced (term fuel room cs)) count rest).map fun found =>
          (nodes ++ found.1, found.2) := by
  induction h with
  | nil =>
    refine ⟨[], rfl, ?_⟩
    simp only [List.length_nil, Nat.zero_add, List.nil_append, Option.map_id']
  | cons he _ ih =>
    have hlt := Spaced.shortens hshort he
    obtain ⟨gap, behind, hterm, hgap⟩ := he
    obtain ⟨node, hnode, hmeans⟩ := hread hfuel hterm
    obtain ⟨nodes, hnodes, hothers⟩ := ih (by omega)
    refine ⟨node :: nodes, ?_, ?_⟩
    · simp only [elaborateAll, hmeans, hnodes, Except.map, List.map_cons]
    · rw [List.length_cons, Nat.add_right_comm, Grammar.many, hnode, spaced_matched, hgap.skip_eq]
      simp only [hothers, Option.map_map, Function.comp_def, List.cons_append]

theorem Sequence.readsAll {rule : Rule ν τ} {count : Nat} (hshort : Shortens rule)
    (hread : ∀ {cs e rest}, cs.length ≤ fuel → rule cs e rest → Reads fuel room cs e rest)
    (h : Sequence (Spaced rule) cs es rest) (hrest : Expr.Closes rest) (hfuel : cs.length ≤ fuel)
    (hcount : es.length ≤ count) : ReadsAll fuel room count cs es rest := by
  obtain ⟨others, rfl⟩ := Nat.exists_eq_add_of_le hcount
  obtain ⟨nodes, hnodes, hmany⟩ := h.many hshort hread hfuel others
  obtain ⟨none, hnone, hmeans⟩ : ReadsAll (ν := ν) (τ := τ) fuel room others rest [] rest :=
    Expr.readsAll_of_closes hrest
  refine ⟨nodes ++ none, ?_, ?_⟩
  · rw [hmany, hnone, Option.map_some]
  · rw [elaborateAll_append hnodes, hmeans]
    simp only [Except.map, List.map_nil, List.append_nil]

/-- What a word is made of, where neither a comment nor a truth value is read first. -/
theorem isWord_of_run {c : Char} {name : List Char} (hc : isWordStart c = true)
    (hr : Run isWordChar name cs rest) (hdash : ¬ ['-', '-'] <+: c :: cs)
    (hletters : ∀ value, ¬ letters value <+: c :: cs) : IsWord (c :: name) := by
  have hname : c :: name <+: c :: cs :=
    List.cons_prefix_cons.mpr ⟨rfl, hr.1 ▸ List.prefix_append name rest⟩
  exact isWord_cons.mpr ⟨⟨hc, hr.2.1⟩, fun h => hdash (h.trans hname),
    fun h => hletters true (h.trans hname), fun h => hletters false (h.trans hname)⟩

/-- What the rules derive with so many brackets is read where there is room for them. -/
def Complete (ν τ : Type) (fuel digits depth : Nat) : Prop :=
  ∀ {room : Nat} {cs : List Char} {e : Expr ν τ} {rest : List Char},
    DerivesTerm digits depth cs e rest → depth ≤ room → cs.length ≤ fuel →
      Reads fuel room cs e rest

section Brackets

variable {digits depth : Nat}

theorem reads_of_quotation (ih : ∀ less < depth, Complete ν τ fuel digits less)
    (h : Matches digits (inside digits depth) .quotation cs e rest) (hroom : depth ≤ room)
    (hfuel : cs.length ≤ fuel) : Reads fuel room cs e rest := by
  cases h with
  | quotation hrule hgap hitems =>
    obtain ⟨less, rfl, rfl⟩ := inside_eq_some hrule
    have hshort := DerivesTerm.shortens (ν := ν) (τ := τ) digits less
    have hbody := hgap.length_le
    have hcount := hitems.length_le (Spaced.shortens hshort)
    simp only [List.length_cons] at hfuel hcount
    cases room with
    | zero => exact absurd hroom (Nat.not_succ_le_zero _)
    | succ room =>
      have hless : less ≤ room := Nat.le_of_succ_le_succ hroom
      refine Reads.quotation ?_
      rw [hgap.skip_eq]
      exact hitems.readsAll hshort
        (fun hlen hterm => ih less (Nat.lt_succ_self less) hterm hless hlen) (.inr ⟨_, rfl⟩)
        (by omega) (by omega)

theorem reads_of_pair (ih : ∀ less < depth, Complete ν τ fuel digits less)
    (h : Matches digits (inside digits depth) .pair cs e rest) (hroom : depth ≤ room)
    (hfuel : cs.length ≤ fuel) : Reads fuel room cs e rest := by
  cases h with
  | pair hrule hgap ha hb =>
    obtain ⟨less, rfl, rfl⟩ := inside_eq_some hrule
    have hbody := hgap.length_le
    have hlt := Spaced.shortens (DerivesTerm.shortens digits less) ha
    obtain ⟨_, _, hfirst, hgapa⟩ := ha
    obtain ⟨_, _, hsecond, hgapb⟩ := hb
    simp only [List.length_cons] at hfuel
    cases room with
    | zero => exact absurd hroom (Nat.not_succ_le_zero _)
    | succ room =>
      have hless : less ≤ room := Nat.le_of_succ_le_succ hroom
      rw [← hgap.skip_eq] at hfirst
      rw [← hgapa.skip_eq] at hsecond
      exact Reads.pair
        (ih less (Nat.lt_succ_self less) hfirst hless (by rw [hgap.skip_eq]; omega))
        (ih less (Nat.lt_succ_self less) hsecond hless (by rw [hgapa.skip_eq]; omega))
        hgapb.skip_eq

end Brackets

/-- **What the rules derive is read**, if there is room for its brackets and fuel for its text. -/
theorem DerivesTerm.reads {digits depth : Nat} (hdigits : digits ≤ Decimal.maxDigits) :
    Complete ν τ fuel digits depth := by
  induction depth using Nat.strongRecOn with
  | ind depth ih =>
    intro room cs e rest h hroom hfuel
    obtain ⟨form, hmatch, hword⟩ := first_iff.mp (derivesTerm_iff.mp h)
    cases form with
    | comment =>
      cases hmatch with
      | comment hl hb => exact Reads.comment hl hb
    | boolean =>
      cases hmatch
      exact Reads.boolean _
    | character =>
      cases hmatch
      exact Reads.character _
    | number =>
      cases hmatch with
      | number hne hr hlen => exact Reads.numeral hne hr (Nat.le_trans hlen hdigits)
    | quotation => exact reads_of_quotation ih hmatch hroom hfuel
    | pair => exact reads_of_pair ih hmatch hroom hfuel
    | string =>
      cases hmatch with
      | string hd htext => exact Reads.string hd htext
    | word =>
      cases hmatch with
      | word hc hr =>
        obtain ⟨hdash, hletters⟩ := hword rfl
        have hw := isWord_of_run hc hr hdash hletters
        obtain ⟨rfl, _, hstops⟩ := hr
        exact Reads.word hw hstops

end Grammar
end Leftward
