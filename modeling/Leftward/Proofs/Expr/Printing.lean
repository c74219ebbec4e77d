import Leftward.Proofs.Expr.Written

/-!
# Printing — which texts expressions have

The notation, said by rules and without a renderer (`Prints`): a string stands between the first of
the three delimiters that it does not hold, any other quotation is the texts of its items between
brackets with single spaces between them and its comments left out, a pair is the texts of its
members, and a leaf has a text of its own. **The renderer writes what the rules say and nothing
else** (`render_eq_some_iff`), whatever stands inside whatever; where an integer has no decimal
text, no rule applies and nothing is written.

A stack is laid out like the items of a quotation, but what it leaves out is *whatever has no text*,
where a quotation leaves out comments. The two differ for the word without letters and for nothing
else (`render_quot_eq`). A definition has a text wherever it stands; only from the top level of a
result can it be missing (`Prints.definition_shows`).
-/

namespace Leftward
namespace Expr

variable {ν τ : Type}

/-! ## The rules -/

/-- The character that the text is set between: the first of double quote, single quote and
backquote that does not occur in it, or the double quote if all of them do. -/
inductive Delimits (text : List Char) : Char → Prop where
  | double : '\x22' ∉ text → Delimits text '\x22'
  | single : '\x22' ∈ text → '\x27' ∉ text → Delimits text '\x27'
  | back : '\x22' ∈ text → '\x27' ∈ text → '\x60' ∉ text → Delimits text '\x60'
  | all : '\x22' ∈ text → '\x27' ∈ text → '\x60' ∈ text → Delimits text '\x22'

mutual

/-- The expression has the text. -/
inductive Prints : Expr ν τ → String → Prop where
  | word (name : String) : Prints (.word name) name
  | number {value : Int} : value.natAbs < Decimal.tooLarge → Prints (.num value) (toString value)
  | yes : Prints (.bool true) "?True"
  | no : Prints (.bool false) "?False"
  | character (c : Char) : Prints (.chr c) (String.ofList ['.', c])
  | definition (name : String) (body : List (Expr ν τ)) (tag : τ) :
      Prints (.defn name body tag) "<definition>"
  | function (op : ν) (tag : τ) : Prints (.native op tag) "<function>"
  | comment (text : String) : Prints (.comment text) ""
  | string {text : List Char} {d : Char} : Delimits text d →
      Prints (.quot (text.map .chr)) (String.ofList (d :: (text ++ [d])))
  | quotation {items : List (Expr ν τ)} {texts : List String} :
      (∃ e ∈ items, e.kind ≠ .character) →
      PrintsAll (items.filter fun e => e.kind ≠ .comment) texts →
      Prints (.quot items) ("[" ++ " ".intercalate texts ++ "]")
  | pair {a b : Expr ν τ} {s t : String} : Prints a s → Prints b t →
      Prints (.pair a b) ("(" ++ s ++ " " ++ t ++ ")")

/-- The expressions have the texts, each its own. -/
inductive PrintsAll : List (Expr ν τ) → List String → Prop where
  | nil : PrintsAll [] []
  | cons {e : Expr ν τ} {es : List (Expr ν τ)} {s : String} {texts : List String} :
      Prints e s → PrintsAll es texts → PrintsAll (e :: es) (s :: texts)

end

/-! ## Leaves and strings -/

theorem write_eq_some_iff {i : Int} {text : String} :
    Decimal.write i = some text ↔ i.natAbs < Decimal.tooLarge ∧ toString i = text := by
  have htext : (if i < 0 then "-" ++ i.natAbs.repr else i.natAbs.repr) = toString i := by
    cases i with
    | ofNat n => rfl
    | negSucc n => exact if_pos (Int.negSucc_lt_zero n)
  unfold Decimal.write
  rw [htext]
  split <;> simp [*]

theorem delimiter_eq_iff {text : List Char} {d : Char} : delimiter text = d ↔ Delimits text d := by
  have hdelimits : Delimits text (delimiter text) := by
    by_cases hdouble : '\x22' ∈ text
    · by_cases hsingle : '\x27' ∈ text
      · by_cases hback : '\x60' ∈ text
        · simpa [delimiter, delimiters, hdouble, hsingle, hback] using .all hdouble hsingle hback
        · simpa [delimiter, delimiters, hdouble, hsingle, hback] using .back hdouble hsingle hback
      · simpa [delimiter, delimiters, hdouble, hsingle] using .single hdouble hsingle
    · simpa [delimiter, delimiters, hdouble] using .double hdouble
  constructor
  · intro h
    exact h ▸ hdelimits
  · intro h
    cases h <;> simp [delimiter, delimiters, *]

theorem text?_eq_none_iff {items : List (Expr ν τ)} :
    text? items = none ↔ ∃ e ∈ items, e.kind ≠ .character := by
  induction items with
  | nil => simp [text?]
  | cons e rest ih =>
    rw [text?_cons]
    cases e with
    | chr c => simp [char?, kind, ih]
    | _ => simp [char?, kind]

theorem shown_eq_filter (items : List (Expr ν τ)) :
    shown items = items.filter fun e => e.kind ≠ .comment := by
  refine List.filter_congr fun e _ => ?_
  cases e <;> rfl

/-! ## The renderer keeps to the rules -/

mutual

theorem Prints.spell_eq {e : Expr ν τ} {s : String} : Prints e s → spell e = some s
  | .word name => spell_leaf rfl
  | .number h => (spell_leaf rfl).trans (write_eq_some_iff.mpr ⟨h, rfl⟩)
  | .yes => spell_leaf rfl
  | .no => spell_leaf rfl
  | .character c => spell_leaf rfl
  | .definition name body tag => spell_leaf rfl
  | .function op tag => spell_leaf rfl
  | .comment text => spell_leaf rfl
  | .string h => by
    rw [spell, text?_map_chr]
    simp only [renderText, delimiter_eq_iff.mpr h, List.cons_append]
  | .quotation hitems h => by
    rw [spell, text?_eq_none_iff.mpr hitems, spellShown_eq_mapM, shown_eq_filter, h.mapM_eq]
    rfl
  | .pair ha hb => by
    rw [spell, ha.spell_eq, hb.spell_eq]
    rfl

theorem PrintsAll.mapM_eq {es : List (Expr ν τ)} {texts : List String} :
    PrintsAll es texts → es.mapM spell = some texts
  | .nil => rfl
  | .cons h hs => by
    rw [mapM_cons_option, h.spell_eq, hs.mapM_eq]
    rfl

end

theorem printsAll_of_mapM {es : List (Expr ν τ)} {texts : List String}
    (ih : ∀ e ∈ es, ∀ s, spell e = some s → Prints e s) (h : es.mapM spell = some texts) :
    PrintsAll es texts := by
  induction es generalizing texts with
  | nil =>
    cases h
    exact .nil
  | cons e rest hrest =>
    rw [mapM_cons_option] at h
    obtain ⟨s, hs, h⟩ := Option.bind_eq_some_iff.mp h
    obtain ⟨others, hothers, rfl⟩ := Option.map_eq_some_iff.mp h
    exact .cons (ih e List.mem_cons_self s hs)
      (hrest (fun x hx => ih x (List.mem_cons_of_mem e hx)) hothers)

theorem prints_of_leaf {e : Expr ν τ} {s : String} (hleaf : e.isLeaf = true)
    (h : leaf e = some s) : Prints e s := by
  cases e with
  | quot | pair => cases hleaf
  | num value =>
    obtain ⟨hsmall, rfl⟩ := write_eq_some_iff.mp h
    exact .number hsmall
  | bool value =>
    cases value <;> cases h
    · exact .no
    · exact .yes
  | word | chr | defn | native | comment =>
    cases h
    constructor

theorem prints_of_spell {e : Expr ν τ} {s : String} (h : spell e = some s) : Prints e s := by
  induction e using nested_induction generalizing s with
  | quotation items ih =>
    rw [spell] at h
    cases htext : text? items with
    | some text =>
      rw [htext] at h
      cases h
      obtain rfl := text?_eq_some_iff.mp htext
      exact .string (delimiter_eq_iff.mp rfl)
    | none =>
      rw [htext, spellShown_eq_mapM, shown_eq_filter] at h
      obtain ⟨texts, htexts, rfl⟩ := Option.map_eq_some_iff.mp h
      have hitems := printsAll_of_mapM (fun e he s hs => ih e (List.mem_filter.mp he).1 hs) htexts
      exact .quotation (text?_eq_none_iff.mp htext) hitems
  | pair a b iha ihb =>
    rw [spell] at h
    obtain ⟨s, hs, h⟩ := Option.bind_eq_some_iff.mp h
    obtain ⟨t, ht, rfl⟩ := Option.map_eq_some_iff.mp h
    exact .pair (iha hs) (ihb ht)
  | leaf e hleaf => exact prints_of_leaf hleaf (spell_leaf hleaf ▸ h)

/-- **The renderer writes what the rules say.** -/
theorem render_eq_some_iff {e : Expr ν τ} {s : String} : e.render = some s ↔ Prints e s := by
  rw [render_eq_spell]
  exact ⟨prints_of_spell, Prints.spell_eq⟩

theorem mapM_spell_eq_some_iff {es : List (Expr ν τ)} {texts : List String} :
    es.mapM spell = some texts ↔ PrintsAll es texts :=
  ⟨printsAll_of_mapM fun _ _ _ => prints_of_spell, PrintsAll.mapM_eq⟩

/-! ## Previews -/

/-- What is shown of a stack where not all of it may be: its text as a quotation if that has at most
150 characters, and else the first 150 of them with three points behind. -/
def Previews (values : Stack ν τ) (shown : String) : Prop :=
  ∃ full, Prints (.quot values) full ∧
    shown = if 150 < full.length then String.ofList (full.toList.take 150) ++ "..." else full

theorem preview_eq_some_iff {values : Stack ν τ} {shown : String} :
    Stack.preview Stack.previewLimit values = some shown ↔ Previews values shown := by
  have hcut (full : String) :
      (if (full.length : Int) > Stack.previewLimit then
        String.ofList (Stack.cut Stack.previewLimit full.toList) ++ "..." else full) =
      if 150 < full.length then String.ofList (full.toList.take 150) ++ "..." else full := by
    have hlong : (full.length : Int) > Stack.previewLimit ↔ 150 < full.length := Int.ofNat_lt
    simp only [hlong]
    rfl
  rw [Stack.preview, Option.map_eq_some_iff]
  constructor
  · rintro ⟨full, hfull, rfl⟩
    exact ⟨full, render_eq_some_iff.mp hfull, hcut full⟩
  · rintro ⟨full, hfull, rfl⟩
    exact ⟨full, render_eq_some_iff.mpr hfull, hcut full⟩

theorem exists_previews {values : Stack ν τ} (h : ∀ e ∈ values, Everywhere Writable e) :
    ∃ shown, Previews values shown := by
  obtain ⟨full, hfull⟩ := Stack.exists_render_quot h
  exact ⟨_, full, render_eq_some_iff.mp hfull, rfl⟩

/-! ## Quotations and stacks -/

/-- Only a comment and the word without letters have no text. -/
theorem Prints.ne_empty {e : Expr ν τ} {s : String} (h : Prints e s) (hcomment : e.kind ≠ .comment)
    (hword : e ≠ .word "") : s ≠ "" := by
  cases h with
  | word name => exact fun hname => hword (by rw [hname])
  | @number value hsmall =>
    cases value with
    | ofNat n =>
      have htext : n.repr.toList ≠ [] := Decimal.repr_ne_nil n
      exact fun hempty => htext (congrArg String.toList hempty)
    | negSucc n =>
      have htext : toString (Int.negSucc n) = "-" ++ (n + 1).repr := rfl
      simp [htext]
  | comment text => exact absurd rfl hcomment
  | yes | no | definition | function => decide
  | character | string => simp
  | quotation | pair => simp

/-- What a stack leaves out is what a quotation leaves out, if no word is without letters. -/
theorem mapM_spell_shown {es : List (Expr ν τ)} (hword : .word "" ∉ es) :
    (es.filter fun e => e.kind ≠ .comment).mapM spell =
      (es.mapM spell).map fun texts => texts.filter (· ≠ "") := by
  induction es with
  | nil => rfl
  | cons e rest ih =>
    have he : e ≠ .word "" := (List.ne_of_not_mem_cons hword).symm
    have hrest : .word "" ∉ rest := List.not_mem_of_not_mem_cons hword
    by_cases hcomment : e.kind = .comment
    · have hempty : spell e = some "" := by
        cases e with
        | comment text => exact spell_leaf rfl
        | _ => cases hcomment
      rw [List.filter_cons_of_neg (by simpa using hcomment), ih hrest, mapM_cons_option, hempty]
      cases rest.mapM spell <;> simp
    · rw [List.filter_cons_of_pos (by simpa using hcomment), mapM_cons_option, mapM_cons_option,
        ih hrest]
      cases hs : spell e with
      | none => rfl
      | some s =>
        have hne : s ≠ "" := (prints_of_spell hs).ne_empty hcomment he
        cases rest.mapM spell <;> simp [hne]

/-- **A quotation that is no string is its items' stack between brackets.** -/
theorem render_quot_eq {es : List (Expr ν τ)} (hitems : ∃ e ∈ es, e.kind ≠ .character)
    (hword : .word "" ∉ es) :
    (quot es).render = (Stack.render es).map fun text => "[" ++ text ++ "]" := by
  have hrender : (Expr.render : Expr ν τ → Option String) = spell := funext render_eq_spell
  rw [render_eq_spell, spell, text?_eq_none_iff.mpr hitems, spellShown_eq_mapM, shown_eq_filter,
    mapM_spell_shown hword, Stack.render, hrender]
  cases es.mapM spell <;> rfl

/-! ## Definitions -/

theorem infix_intercalate {t : String} {texts : List String} (h : t ∈ texts) (separator : String) :
    t.toList <:+: (separator.intercalate texts).toList := by
  induction texts with
  | nil => cases h
  | cons first rest ih =>
    by_cases hrest : rest = []
    · subst hrest
      obtain rfl := List.mem_singleton.mp h
      simp only [String.intercalate_singleton, List.infix_rfl]
    · rw [String.intercalate_cons_of_ne_nil hrest, String.toList_append, String.toList_append,
        List.append_assoc]
      rcases List.mem_cons.mp h with rfl | h
      · exact List.infix_append_left
      · exact (ih h).trans ((List.suffix_append _ _).trans (List.suffix_append _ _)).isInfix

theorem PrintsAll.exists_of_mem {es : List (Expr ν τ)} {texts : List String} {e : Expr ν τ}
    (h : PrintsAll es texts) (he : e ∈ es) : ∃ s ∈ texts, Prints e s := by
  induction es generalizing texts with
  | nil => cases he
  | cons x rest ih =>
    cases h with
    | @cons _ _ s others hx hrest =>
      rcases List.mem_cons.mp he with rfl | he
      · exact ⟨s, List.mem_cons_self, hx⟩
      · obtain ⟨t, ht, hprints⟩ := ih hrest he
        exact ⟨t, List.mem_cons_of_mem s ht, hprints⟩

/-- **A definition shows wherever it is nested.** -/
theorem Prints.definition_shows {name : String} {body : List (Expr ν τ)} {tag : τ} {e : Expr ν τ}
    {s : String} (hpart : Part (.defn name body tag) e) (h : Prints e s) :
    "<definition>".toList <:+: s.toList := by
  induction hpart generalizing s with
  | whole =>
    cases h
    exact List.infix_rfl
  | @item e items he hpart ih =>
    cases h with
    | string =>
      -- A part of a character is the character.
      obtain ⟨c, -, rfl⟩ := List.mem_map.mp he
      cases hpart
    | @quotation _ texts hitems hprints =>
      have hshown : e.kind ≠ .comment := by
        intro hkind
        cases hpart <;> cases hkind
      have hmem : e ∈ items.filter fun x => x.kind ≠ .comment :=
        List.mem_filter.mpr ⟨he, by simpa using hshown⟩
      obtain ⟨t, ht, htext⟩ := hprints.exists_of_mem hmem
      simp only [String.toList_append]
      exact ((ih htext).trans (infix_intercalate ht " ")).trans (List.infix_append _ _ _)
  | first _ ih =>
    cases h with
    | pair ha hb =>
      simp only [String.toList_append, List.append_assoc]
      exact ((ih ha).trans List.infix_append_left).trans (List.suffix_append _ _).isInfix
  | second _ ih =>
    cases h with
    | pair ha hb =>
      simp only [String.toList_append]
      exact (ih hb).trans (List.infix_append _ _ _)

/-! ## All of it -/

theorem render_stack_eq_some_iff {es : List (Expr ν τ)} {text : String} :
    Stack.render es = some text ↔
      ∃ texts, PrintsAll es texts ∧ text = " ".intercalate (texts.filter (· ≠ "")) := by
  have hrender : (Expr.render : Expr ν τ → Option String) = spell := funext render_eq_spell
  rw [Stack.render, hrender, Option.map_eq_some_iff]
  constructor
  · rintro ⟨texts, htexts, rfl⟩
    exact ⟨texts, mapM_spell_eq_some_iff.mp htexts, rfl⟩
  · rintro ⟨texts, htexts, rfl⟩
    exact ⟨texts, mapM_spell_eq_some_iff.mpr htexts, rfl⟩

theorem visible_eq_filter (es : List (Expr ν τ)) :
    Stack.visible es = es.filter fun e => e.kind ≠ .definition := by
  refine List.filter_congr fun e _ => ?_
  cases e <;> rfl

/-- **Of a result everything is written but its definitions.** -/
theorem renderVisible_eq_some_iff {es : List (Expr ν τ)} {text : String} :
    Stack.renderVisible es = some text ↔
      ∃ texts, PrintsAll (es.filter fun e => e.kind ≠ .definition) texts ∧
        text = " ".intercalate (texts.filter (· ≠ "")) := by
  rw [Stack.renderVisible, visible_eq_filter, render_stack_eq_some_iff]

/-- What is nested in a value that is shown of a result is shown, definitions too. -/
theorem definition_shows_in_result {es : List (Expr ν τ)} {text : String} {e : Expr ν τ}
    {name : String} {body : List (Expr ν τ)} {tag : τ} (h : Stack.renderVisible es = some text)
    (he : e ∈ es) (hvisible : e.kind ≠ .definition) (hpart : Part (.defn name body tag) e) :
    "<definition>".toList <:+: text.toList := by
  obtain ⟨texts, hprints, rfl⟩ := renderVisible_eq_some_iff.mp h
  have hmem : e ∈ es.filter fun e => e.kind ≠ .definition :=
    List.mem_filter.mpr ⟨he, by simpa using hvisible⟩
  obtain ⟨s, hs, htext⟩ := hprints.exists_of_mem hmem
  have hshows := htext.definition_shows hpart
  have hne : s ≠ "" := by
    intro hempty
    rw [hempty] at hshows
    exact absurd hshows.length_le (by decide)
  have hkept : s ∈ texts.filter (· ≠ "") := List.mem_filter.mpr ⟨hs, by simpa using hne⟩
  exact hshows.trans (infix_intercalate hkept " ")

/-- **The renderer keeps to the rules of the language's texts.** An expression renders as the text
that the rules give it, and has none where they give it none. A stack renders as the texts of its
values with single spaces between them, those that have no letter left out; so a quotation that is
no string and holds no word without letters is its items' stack between brackets. Of a result all
but its definitions is shown, and definitions too where they are nested in something else. -/
theorem rendering_by_rules :
    (∀ (e : Expr ν τ) (s : String), e.render = some s ↔ Prints e s) ∧
    (∀ es : List (Expr ν τ), (∃ e ∈ es, e.kind ≠ .character) → .word "" ∉ es →
      (quot es).render = (Stack.render es).map fun text => "[" ++ text ++ "]") ∧
    (∀ (es : List (Expr ν τ)) (text : String), Stack.render es = some text ↔
      ∃ texts, PrintsAll es texts ∧ text = " ".intercalate (texts.filter (· ≠ ""))) ∧
    (∀ es : List (Expr ν τ), Stack.renderVisible es =
      Stack.render (es.filter fun e => e.kind ≠ .definition)) ∧
    ∀ (es : List (Expr ν τ)) (text : String) (e : Expr ν τ) (name : String)
      (body : List (Expr ν τ)) (tag : τ), Stack.renderVisible es = some text → e ∈ es →
        e.kind ≠ .definition → Part (.defn name body tag) e →
          "<definition>".toList <:+: text.toList := by
  refine ⟨fun e s => render_eq_some_iff, fun es hitems hword => render_quot_eq hitems hword,
    fun es text => render_stack_eq_some_iff, fun es => ?_,
    fun es text e name body tag h he hvisible hpart =>
      definition_shows_in_result h he hvisible hpart⟩
  rw [Stack.renderVisible, visible_eq_filter]

/-- A definition and a comment in a quotation, with a negative number beside it. -/
theorem rendering_by_rules_nested :
    (∃ e ∈ [quot [defn "f" [] (), comment "c"], (num (-3) : Expr Unit Unit)],
        e.kind ≠ .character) ∧
      (word "" : Expr Unit Unit) ∉ [quot [defn "f" [] (), comment "c"], num (-3)] ∧
      (quot [quot [defn "f" [] (), comment "c"], (num (-3) : Expr Unit Unit)]).render =
        some "[[<definition>] -3]" ∧
      "<definition>".toList <:+: "[<definition>] -3".toList := by
  obtain ⟨-, hquot, hstack, hvisible, hshows⟩ := @rendering_by_rules Unit Unit
  let code : List (Expr Unit Unit) := [defn "f" [] (), comment "c"]
  let es : List (Expr Unit Unit) := [quot code, num (-3)]
  have hsmall : (-3 : Int).natAbs < Decimal.tooLarge := Decimal.Brief.lt (by decide)
  have hcode : ∃ e ∈ code, e.kind ≠ .character := ⟨_, List.mem_cons_self, by decide⟩
  have hinner : Prints (quot code) "[<definition>]" :=
    .quotation hcode (.cons (.definition "f" [] ()) .nil)
  have hrender : Stack.render es = some "[<definition>] -3" :=
    (hstack _ _).mpr ⟨_, .cons hinner (.cons (.number hsmall) .nil), rfl⟩
  have hresult : Stack.renderVisible es = some "[<definition>] -3" := (hvisible es).trans hrender
  have hitems : ∃ e ∈ es, e.kind ≠ .character := ⟨_, List.mem_cons_self, by decide⟩
  have hword : word "" ∉ es := by simp [es]
  refine ⟨hitems, hword, ?_, ?_⟩
  · rw [hquot es hitems hword, hrender]
    rfl
  · exact hshows es _ (quot code) "f" [] () hresult List.mem_cons_self (by decide)
      (.item List.mem_cons_self .whole)

end Expr
end Leftward
