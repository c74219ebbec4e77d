import Leftward.Proofs.Grammar.Meaning

/-!
# Printing and reading back

A legible text is read as it was meant, whatever blank gaps it is laid out with. The induction is
on the layout (`Laid.reads`): every token ends where a gap or a closing bracket stands behind it
(`Behind`), and every term begins with something that is not passed over (`Laid.opens`), so that
the gap in front of it is passed over whole and nothing of the term is.
-/

namespace Leftward
namespace Expr

open Grammar Text

variable {ν τ : Type}

/-- A gap that the reader passes over: at least one character, all of them skipped. -/
def Blank (gap : List Char) : Prop := gap ≠ [] ∧ ∀ c ∈ gap, isSkipped c = true

/-- What stands behind a term in a layout: the end, a gap or a bracket that closes. -/
def Behind (rest : List Char) : Prop :=
  Stops (fun c => !(isSkipped c || c = ']' || c = ')')) rest

/-- What stands behind the last term: the end or the bracket of the quotation. -/
def Closes (rest : List Char) : Prop := rest = [] ∨ ∃ cs, rest = ']' :: cs

theorem Behind.of_closes {rest : List Char} (h : Closes rest) : Behind rest := by
  rcases h with rfl | ⟨cs, rfl⟩
  · exact stops_nil _
  · exact stops_cons.mpr rfl

theorem Behind.of_blank {gap rest : List Char} (h : Blank gap) : Behind (gap ++ rest) := by
  obtain ⟨c, cs, rfl⟩ := List.exists_cons_of_ne_nil h.1
  refine stops_cons.mpr ?_
  simp [h.2 c List.mem_cons_self]

/-- Behind a term no word goes on. -/
theorem Behind.stops {rest : List Char} (h : Behind rest) : Stops isWordChar rest := by
  intro c cs heq
  subst heq
  have hc := stops_cons.mp h
  simp only [Bool.not_eq_false', Bool.or_eq_true, decide_eq_true_eq] at hc
  rcases hc with (hskip | rfl) | rfl
  · simp [isWordChar, isBlank_of_isSkipped hskip]
  · rfl
  · rfl

theorem Behind.stops_isDigit {rest : List Char} (h : Behind rest) : Stops Char.isDigit rest := by
  intro c cs heq
  subst heq
  have hc := h.stops c cs rfl
  cases hdigit : c.isDigit with
  | false => rfl
  | true =>
    rw [isWordChar_of_isDigit hdigit] at hc
    cases hc

theorem Closes.stops {rest : List Char} (h : Closes rest) : Stops isSkipped rest := by
  rcases h with rfl | ⟨cs, rfl⟩
  · exact stops_nil _
  · exact stops_cons.mpr rfl

theorem skip_of_stops {cs : List Char} (h : Stops isSkipped cs) : skip cs = cs := by
  cases cs with
  | nil => rfl
  | cons c cs => simp [skip, stops_cons.mp h]

theorem skip_blank {gap cs : List Char} (hg : Blank gap) (h : Stops isSkipped cs) :
    skip (gap ++ cs) = cs := dropWhile_append_stops hg.2 h

/-! ## Where a term begins -/

theorem not_isSkipped_of_isWordChar {c : Char} (h : isWordChar c = true) : isSkipped c = false := by
  cases hskip : isSkipped c with
  | false => rfl
  | true =>
    have hblank := (isWordChar_iff.mp h).1
    rw [isBlank_of_isSkipped hskip] at hblank
    cases hblank

theorem not_isSkipped_of_isDelimiter {c : Char} (h : isDelimiter c = true) :
    isSkipped c = false := by
  simp only [isDelimiter, Bool.or_eq_true, decide_eq_true_eq] at h
  rcases h with (rfl | rfl) | rfl <;> rfl

theorem Laid.opens {gap : List Char → Prop} {e : Expr ν τ} {cs : List Char} (h : Laid gap e cs)
    (hl : Legible e) (rest : List Char) : Stops isSkipped (cs ++ rest) := by
  cases h with
  | leaf hleaf hs =>
    rcases token_of_leaf hleaf hs hl with ⟨hw, _⟩ | ⟨n, _, rfl, _⟩ | ⟨c, rfl, _⟩
    · obtain ⟨c, cs, hname, hc, _⟩ := hw.1
      rw [hname]
      exact stops_cons.mpr (not_isSkipped_of_isWordChar (isWordChar_of_isWordStart hc))
    · obtain ⟨c, cs, hrepr⟩ := List.exists_cons_of_ne_nil (Decimal.repr_ne_nil n)
      have hc : c.isDigit = true := Decimal.isDigit_of_mem_repr (hrepr ▸ List.mem_cons_self)
      rw [hrepr]
      exact stops_cons.mpr (not_isSkipped_of_isWordChar (isWordChar_of_isDigit hc))
    · rw [String.toList_ofList]
      exact stops_cons.mpr rfl
  | string text =>
    obtain ⟨hd, _⟩ := delimiter_of_legible (hl text (text?_map_chr text))
    exact stops_cons.mpr (not_isSkipped_of_isDelimiter hd)
  | quotation => exact stops_cons.mpr rfl
  | pair => exact stops_cons.mpr rfl

theorem LaidAll.opens {gap : List Char → Prop} {es : List (Expr ν τ)} {cs : List Char}
    (h : LaidAll gap es cs) (hl : ∀ e ∈ es, Legible e) {rest : List Char} (hrest : Closes rest) :
    Stops isSkipped (cs ++ rest) := by
  cases h with
  | nil => exact hrest.stops
  | one h => exact h.opens (hl _ List.mem_cons_self) rest
  | cons h =>
    rw [List.append_assoc]
    exact h.opens (hl _ List.mem_cons_self) _

/-! ## What is laid out is read -/

theorem asRead_string (text : List Char) :
    asRead (.quot (text.map .chr) : Expr ν τ) = .quot (text.map .chr) := by
  refine asRead_eq_self (everywhere_quot.mpr ⟨trivial, ?_⟩)
  simp only [List.forall_mem_map]
  intro c _
  exact (everywhere_leaf rfl).mpr trivial

theorem reads_of_leaf {e : Expr ν τ} {s : String} (h : e.leaf = some s) (hs : s ≠ "")
    (hl : Legible e) {fuel room : Nat} {rest : List Char} (hrest : Behind rest) :
    Reads fuel room (s.toList ++ rest) (asRead e) rest := by
  rcases token_of_leaf h hs hl with ⟨hw, heq⟩ | ⟨n, hn, rfl, heq⟩ | ⟨c, rfl, heq⟩
  · have hname : asRead e = word (String.ofList s.toList) := by rw [heq, String.ofList_toList]
    rw [hname]
    exact Reads.word hw hrest.stops
  · rw [heq]
    exact Reads.number hn hrest.stops_isDigit
  · rw [heq, String.toList_ofList]
    exact Reads.character c

/-- Nothing is read where a program or a quotation ends. -/
theorem readsAll_of_closes {fuel room count : Nat} {rest : List Char} (h : Closes rest) :
    ReadsAll (ν := ν) (τ := τ) fuel room count rest [] rest := by
  have hclosed : rest = [] ∨ ∃ cs, rest = ']' :: cs ∨ rest = ')' :: cs :=
    h.imp_right fun ⟨cs, hcs⟩ => ⟨cs, .inl hcs⟩
  refine .nil ?_
  cases room with
  | zero => exact alternatives_closing hclosed
  | succ room => exact alternatives_closing hclosed

mutual

/-- **A laid out expression is read, and nothing more.** -/
theorem Laid.reads {e : Expr ν τ} {cs : List Char} :
    Laid Blank e cs → Everywhere Legible e → ∀ (fuel room : Nat) (rest : List Char),
      e.nesting ≤ room → cs.length ≤ fuel → Behind rest →
        Reads fuel room (cs ++ rest) (asRead e) rest
  | .leaf hleaf hs, hl, _, _, _, _, _, hrest => reads_of_leaf hleaf hs hl.self hrest
  | .string text, hl, _, _, _, _, _, _ => by
    obtain ⟨hd, htext⟩ := delimiter_of_legible (hl.self text (text?_map_chr text))
    rw [asRead_string, List.cons_append, List.append_assoc]
    exact Reads.string hd htext
  | .quotation hitems h, hl, fuel, room, rest, hroom, hfuel, _ => by
    have hparts := (everywhere_quot.mp hl).2
    have hcloses : Closes (']' :: rest) := .inr ⟨rest, rfl⟩
    have hlength := h.length_le
    simp only [List.length_cons, List.length_append] at hfuel
    rw [nesting_quot hitems] at hroom
    -- Without room for its own brackets the quotation would be nested too deeply.
    cases room with
    | zero => exact absurd hroom (Nat.not_succ_le_zero _)
    | succ room =>
      have hinside := h.reads hparts fuel room fuel (']' :: rest) (Nat.le_of_succ_le_succ hroom)
        (by omega) (by omega) hcloses
      rw [asRead, asReadAll_eq_map, List.cons_append, List.append_assoc, List.singleton_append]
      refine Reads.quotation ?_
      rwa [skip_of_stops (h.opens (fun x hx => (hparts x hx).self) hcloses)]
  | .pair (s := s) (g := g) (t := t) ha hg hb, hl, fuel, room, rest, hroom, hfuel, _ => by
    obtain ⟨_, hla, hlb⟩ := everywhere_pair.mp hl
    have hclose : Behind (')' :: rest) := stops_cons.mpr rfl
    simp only [List.length_cons, List.length_append] at hfuel
    rw [nesting] at hroom
    cases room with
    | zero => exact absurd hroom (Nat.not_succ_le_zero _)
    | succ room =>
      obtain ⟨hrooma, hroomb⟩ := Nat.max_le.mp (Nat.le_of_succ_le_succ hroom)
      have hfirst := ha.reads hla fuel room (g ++ (t ++ ')' :: rest)) hrooma (by omega)
        (.of_blank hg)
      have hsecond := hb.reads hlb fuel room (')' :: rest) hroomb (by omega) hclose
      -- Nothing is passed over in front of the first member, the gap in front of the second.
      rw [← skip_of_stops (ha.opens hla.self _)] at hfirst
      rw [← skip_blank hg (hb.opens hlb.self _)] at hsecond
      simp only [asRead, List.cons_append, List.append_assoc, List.nil_append]
      exact Reads.pair hfirst hsecond rfl

/-- **Expressions laid out side by side are read one after the other.** -/
theorem LaidAll.reads {es : List (Expr ν τ)} {cs : List Char} :
    LaidAll Blank es cs → (∀ e ∈ es, Everywhere Legible e) →
      ∀ (fuel room count : Nat) (rest : List Char), nestingAll es ≤ room → cs.length ≤ fuel →
        es.length ≤ count → Closes rest →
          ReadsAll fuel room count (cs ++ rest) (es.map asRead) rest
  | .nil, _, _, _, _, _, _, _, _, hrest => readsAll_of_closes hrest
  | .one h, hl, fuel, room, count, rest, hroom, hfuel, hcount, hrest => by
    cases count with
    | zero => exact absurd hcount (Nat.not_succ_le_zero _)
    | succ count =>
      have hread := h.reads (hl _ List.mem_cons_self) fuel room rest
        (nestingAll_le.mp hroom _ List.mem_cons_self) hfuel (.of_closes hrest)
      refine ReadsAll.cons hread ?_
      rw [skip_of_stops hrest.stops]
      exact readsAll_of_closes hrest
  | .cons (g := g) (t := t) h hg hs, hl, fuel, room, count, rest, hroom, hfuel, hcount, hrest => by
    obtain ⟨hhead, htail⟩ := List.forall_mem_cons.mp hl
    obtain ⟨hroomh, hroomt⟩ := Nat.max_le.mp hroom
    simp only [List.length_append] at hfuel
    cases count with
    | zero => exact absurd hcount (Nat.not_succ_le_zero _)
    | succ count =>
      have hfirst := h.reads hhead fuel room (g ++ (t ++ rest)) hroomh (by omega) (.of_blank hg)
      have hothers := hs.reads htail fuel room count rest hroomt (by omega)
        (Nat.le_of_succ_le_succ hcount) hrest
      rw [← skip_blank hg (hs.opens (fun x hx => (htail x hx).self) hrest)] at hothers
      rw [List.append_assoc, List.append_assoc]
      exact ReadsAll.cons hfirst hothers

end

/-! ## Programs -/

theorem parse_of_laidAll {es : List (Expr ν τ)} {cs : List Char} (h : LaidAll Blank es cs)
    (hl : ∀ e ∈ es, Everywhere Legible e) (hn : ∀ e ∈ es, e.nesting ≤ room) :
    parse cs room = .ok (es.map asRead) := by
  have hcloses : Closes [] := .inl rfl
  have hread := h.reads hl cs.length room cs.length [] (nestingAll_le.mpr hn)
    (Nat.le_refl _) h.length_le hcloses
  rw [← skip_of_stops (h.opens (fun e he => (hl e he).self) hcloses)] at hread
  rw [List.append_nil] at hread
  exact parse_of_readsAll hread

theorem exists_laidAll_of_legible {gap : List Char → Prop} {g : List Char} (hg : gap g)
    {es : List (Expr ν τ)} (hl : ∀ e ∈ es, Everywhere Legible e) : ∃ cs, LaidAll gap es cs :=
  exists_laidAll hg fun e he =>
    exists_laid hg ((hl e he).imp fun _ hx hleaf => exists_leaf_of_legible hx hleaf)

theorem blank_of_space (gap : List Char) : Space gap → Blank gap := by
  intro heq
  subst heq
  exact ⟨by simp, List.all_eq_true.mp rfl⟩

theorem render_asRead {es : List (Expr ν τ)} (hl : ∀ e ∈ es, Everywhere Lexical e) :
    Stack.render (es.map asRead) = Stack.render es := by
  have htexts : (es.map asRead).mapM Expr.render = es.mapM Expr.render := by
    induction es with
    | nil => rfl
    | cons e rest ih =>
      obtain ⟨he, hrest⟩ := List.forall_mem_cons.mp hl
      rw [List.map_cons, mapM_cons_option, mapM_cons_option, ih hrest, render_eq_spell,
        render_eq_spell, spell_asRead he]
  rw [Stack.render, Stack.render, htexts]

/-- **Reading undoes printing, up to the words that stand for what has no notation.** Legible
expressions that are not nested too deeply for the room that there is have a text, which reads as
`asRead` has it: as themselves, if they are literal throughout. What was read has the same text
again, and every other blank layout reads as the same. Conversely all that is read from any text is
made of what texts can say. -/
theorem parse_render (room : Nat) :
    (∀ es : Stack ν τ, (∀ e ∈ es, Everywhere Legible e) → (∀ e ∈ es, e.nesting ≤ room) →
      ∃ text : String, Stack.render es = some text ∧
        parse text.toList room = .ok (es.map asRead) ∧
        Stack.render (es.map asRead) = some text ∧
        ((∀ e ∈ es, Everywhere Literal e) → es.map asRead = es) ∧
        (∀ cs, LaidAll Space es cs ↔ cs = text.toList) ∧
        ∀ cs, LaidAll Blank es cs → parse cs room = .ok (es.map asRead)) ∧
    ∀ (text : List Char) (es : Stack ν τ), parse text room = .ok es → ∀ e ∈ es, Made room e := by
  refine ⟨fun es hl hn => ?_, fun text es h => made_of_parse h⟩
  -- The rendering is one of the layouts, so what holds of layouts holds of it.
  obtain ⟨cs, hcs⟩ : ∃ cs, LaidAll Space es cs := exists_laidAll_of_legible space hl
  have hblank : LaidAll Blank es cs := hcs.imp blank_of_space
  have hlexical : ∀ e ∈ es, Everywhere Lexical e := fun e he =>
    (hl e he).imp fun _ => lexical_of_legible
  refine ⟨String.ofList cs, hcs.render, ?_, ?_, ?_, ?_, ?_⟩
  · rw [String.toList_ofList]
    exact parse_of_laidAll hblank hl hn
  · rw [render_asRead hlexical]
    exact hcs.render
  · intro hliteral
    exact (List.map_congr_left fun e he => asRead_eq_self (hliteral e he)).trans (List.map_id es)
  · intro layout
    rw [String.toList_ofList]
    constructor
    · intro hlayout
      exact String.ofList_injective (Option.some.inj (hlayout.render.symm.trans hcs.render))
    · intro heq
      subst heq
      exact hcs
  · intro layout hlayout
    exact parse_of_laidAll hlayout hl hn

/-- A negative number, a boolean and a native are read back as words. -/
theorem parse_render_stand_ins :
    Stack.render [.word "dup", .num (-5), .quot [.bool true, .chr ' '], .native () ()] =
        some "dup -5 [?True . ] <function>" ∧
      parse (ν := Unit) (τ := Unit) "dup -5 [?True . ] <function>".toList 1 =
        .ok [.word "dup", .word "-5", .quot [.word "?True", .chr ' '], .word "<function>"] := by
  have hword : Everywhere Legible (.word "dup" : Expr Unit Unit) :=
    (everywhere_leaf rfl).mpr (by decide : IsWord "dup".toList)
  have hnum : Everywhere Legible (.num (-5) : Expr Unit Unit) :=
    (everywhere_leaf rfl).mpr (by decide +kernel : Int.natAbs (-5) < Decimal.tooLarge)
  have hquot : Everywhere Legible (.quot [.bool true, .chr ' '] : Expr Unit Unit) := by
    have hleaves : ∀ e ∈ [.bool true, .chr ' '],
        Everywhere (Legible (ν := Unit) (τ := Unit)) e := by
      simpa using ⟨(everywhere_leaf rfl).mpr trivial, (everywhere_leaf rfl).mpr trivial⟩
    refine everywhere_quot.mpr ⟨?_, hleaves⟩
    simp [Legible, text?, char?]
  have hnative : Everywhere Legible (.native () () : Expr Unit Unit) :=
    (everywhere_leaf rfl).mpr trivial
  have hlegible : ∀ e ∈ [.word "dup", .num (-5), .quot [.bool true, .chr ' '], .native () ()],
      Everywhere (Legible (ν := Unit) (τ := Unit)) e := by
    simp [hword, hnum, hquot, hnative]
  obtain ⟨text, hrender, hparse, _⟩ := (parse_render 1).1 _ hlegible (by decide)
  have htext : text = "dup -5 [?True . ] <function>" := by
    rw [Stack.render, funext (render_eq_spell (ν := Unit) (τ := Unit))] at hrender
    refine Option.some.inj (hrender.symm.trans ?_)
    decide +kernel
  subst htext
  exact ⟨hrender, hparse⟩

end Expr
end Leftward
