import Leftward.Proofs.Grammar.Legible
import Leftward.Proofs.Grammar.Nodewise
import Leftward.Proofs.Grammar.Reads

/-!
# What a text can mean

Whatever is read from a text is made of what texts can say (`Made`): its words are words of the
grammar, its numbers are not negative and not too large, there are no natives and no definitions in
it, and its brackets are not nested deeper than the reader goes. **This holds of every text**, so
nothing that comes from outside can put a native or a definition on the stack other than by running.

The reader knows nothing of expressions, and the elaboration nothing of texts. What the one may
assume of the other is that every node has such a meaning if it has any (`Means`).
-/

namespace Leftward
namespace Grammar

open Leftward.Expr Text

variable {ν τ : Type}

/-- A text can say the expression, if it can say its parts. -/
def Sayable (e : Expr ν τ) : Prop := Lexical e ∧ (Literal e ∨ ∃ value, e = .bool value)

/-- The expression can come from a text with so many brackets inside each other. -/
def Made (room : Nat) (e : Expr ν τ) : Prop := Everywhere Sayable e ∧ e.nesting ≤ room

/-- The meaning of the node, if it has one, is such an expression. -/
def Means (ν τ : Type) (room : Nat) (node : Node) : Prop :=
  ∀ reading : Reading ν τ, elaborate node = .ok reading → ∃ e, reading = .expr e ∧ Made room e

variable {fuel room : Nat} {cs rest : List Char} {node : Node}

theorem Made.leaf {e : Expr ν τ} (hleaf : e.isLeaf = true) (h : Sayable e) : Made room e := by
  refine ⟨(everywhere_leaf hleaf).mpr h, ?_⟩
  cases e with
  | quot | pair => cases hleaf
  | _ => simp [nesting]

theorem Made.string (text : List Char) : Made room (.quot (text.map .chr) : Expr ν τ) := by
  refine ⟨everywhere_quot.mpr ⟨⟨trivial, .inl trivial⟩, ?_⟩, ?_⟩
  · simp only [List.forall_mem_map]
    intro c _
    have hc : Sayable (.chr c : Expr ν τ) := ⟨trivial, .inl trivial⟩
    exact (everywhere_leaf rfl).mpr hc
  · simp [nesting, text?_map_chr]

theorem Made.quotation {es : List (Expr ν τ)} (h : ∀ e ∈ es, Made room e) :
    Made (room + 1) (.quot es) := by
  refine ⟨everywhere_quot.mpr ⟨⟨trivial, .inl trivial⟩, fun e he => (h e he).1⟩, ?_⟩
  rw [nesting]
  split
  · exact Nat.zero_le _
  · exact Nat.succ_le_succ (nestingAll_le.mpr fun e he => (h e he).2)

theorem Made.pair {a b : Expr ν τ} (ha : Made room a) (hb : Made room b) :
    Made (room + 1) (.pair a b) := by
  refine ⟨everywhere_pair.mpr ⟨⟨trivial, .inl trivial⟩, ha.1, hb.1⟩, ?_⟩
  rw [nesting]
  exact Nat.succ_le_succ (Nat.max_le.mpr ⟨ha.2, hb.2⟩)

/-! ## Nodes side by side -/

theorem elaborateAll_of_means {nodes : List Node} (h : ∀ node ∈ nodes, Means ν τ room node)
    {readings : List (Reading ν τ)}
    (hr : elaborateAll nodes = .ok readings) :
    ∃ es : List (Expr ν τ), readings = es.map .expr ∧ ∀ e ∈ es, Made room e := by
  induction nodes generalizing readings with
  | nil =>
    cases hr
    exact ⟨[], rfl, by simp⟩
  | cons node nodes ih =>
    rw [elaborateAll] at hr
    split at hr
    · cases hr
    · rename_i reading hreading
      obtain ⟨e, rfl, he⟩ := h node List.mem_cons_self reading hreading
      cases hrest : elaborateAll (ν := ν) (τ := τ) nodes with
      | error failure =>
        rw [hrest] at hr
        cases hr
      | ok readings =>
        obtain ⟨es, rfl, hes⟩ := ih (fun x hx => h x (List.mem_cons_of_mem node hx)) hrest
        rw [hrest] at hr
        cases hr
        exact ⟨e :: es, rfl, List.forall_mem_cons.mpr ⟨he, hes⟩⟩

/-! ## Tokens -/

/-- The meaning of a leaf is that of its text. -/
theorem elaborate_leaf {tag : Tag} {text : List Char}
    (htag : tag = .number ∨ tag = .character ∨ tag = .string ∨ tag = .word ∨ tag = .comment) :
    elaborate (.leaf tag text) = (elaborateText (ν := ν) (τ := τ) tag text).map .expr := by
  rcases htag with rfl | rfl | rfl | rfl | rfl
  all_goals simp only [Node.leaf, elaborate, String.toList_ofList]

theorem Means.of_text {tag : Tag} {text : List Char}
    (htag : tag = .number ∨ tag = .character ∨ tag = .string ∨ tag = .word ∨ tag = .comment)
    (h : ∀ e : Expr ν τ, elaborateText tag text = .ok e → Made room e) :
    Means ν τ room (.leaf tag text) := by
  intro reading hr
  rw [elaborate_leaf htag] at hr
  cases htext : elaborateText (ν := ν) (τ := τ) tag text with
  | error failure =>
    rw [htext] at hr
    cases hr
  | ok e =>
    rw [htext] at hr
    cases hr
    exact ⟨e, rfl, h e htext⟩

theorem comment_means (h : comment cs = .matched node rest) : Means ν τ room node := by
  obtain ⟨line, rfl⟩ := comment_eq_matched h
  refine .of_text (by simp) fun e heq => ?_
  cases heq
  exact .leaf rfl ⟨trivial, .inl trivial⟩

theorem boolean_means (h : boolean cs = .matched node rest) : Means ν τ room node := by
  obtain ⟨value, rfl⟩ := boolean_eq_matched h
  intro reading heq
  cases heq
  exact ⟨.bool value, rfl, .leaf rfl ⟨trivial, .inr ⟨value, rfl⟩⟩⟩

theorem character_means (h : character cs = .matched node rest) : Means ν τ room node := by
  obtain ⟨c, rfl⟩ := character_eq_matched h
  refine .of_text (by simp) fun e heq => ?_
  cases heq
  exact .leaf rfl ⟨trivial, .inl trivial⟩

/-- A numeral that is read is neither negative nor too large. -/
theorem number_means (h : number cs = .matched node rest) : Means ν τ room node := by
  obtain ⟨digits, hne, hdigits, rfl⟩ := number_eq_matched h
  refine .of_text (by simp) fun e he => ?_
  cases hvalue : Decimal.read digits with
  | none =>
    simp only [elaborateText, hvalue] at he
    cases he
  | some value =>
    simp only [elaborateText, hvalue] at he
    cases he
    obtain ⟨hpos, hlt⟩ := Decimal.lt_tooLarge_of_read hne hdigits hvalue
    exact .leaf rfl ⟨hlt, .inl hpos⟩

theorem string_means (h : string cs = .matched node rest) : Means ν τ room node := by
  obtain ⟨text, rfl⟩ := string_eq_matched h
  refine .of_text (by simp) fun e heq => ?_
  cases heq
  exact .string _

/-- A run of word characters is a word where neither a comment nor a boolean is read. -/
theorem word_means (hcom : comment cs = .unmatched) (hbool : boolean cs = .unmatched)
    (h : word cs = .matched node rest) : Means ν τ room node := by
  obtain ⟨c, behind, rfl, hc, rfl⟩ := word_eq_matched h
  refine .of_text (by simp) fun e heq => ?_
  cases heq
  -- What begins the word begins the text, where it would have been read before.
  have hname : c :: behind.takeWhile isWordChar <+: c :: behind :=
    List.cons_prefix_cons.mpr ⟨rfl, List.takeWhile_prefix _⟩
  obtain ⟨htrue, hfalse⟩ := boolean_eq_unmatched_iff.mp hbool
  have hword : IsWord (c :: behind.takeWhile isWordChar) :=
    ⟨⟨c, _, rfl, hc, List.all_eq_true.mp List.all_takeWhile⟩,
      fun hp => comment_eq_unmatched_iff.mp hcom (hp.trans hname),
      fun hp => htrue (hp.trans hname), fun hp => hfalse (hp.trans hname)⟩
  refine .leaf rfl ⟨?_, .inl trivial⟩
  rwa [Lexical, String.toList_ofList]

/-! ## Brackets -/

theorem Means.quotation {items : List Node} (h : ∀ node ∈ items, Means ν τ room node) :
    Means ν τ (room + 1) (.branch .quotation items) := by
  intro reading hr
  simp only [Node.branch, elaborate] at hr
  cases hitems : elaborateAll (ν := ν) (τ := τ) items with
  | error failure =>
    rw [hitems] at hr
    cases hr
  | ok readings =>
    obtain ⟨es, rfl, hes⟩ := elaborateAll_of_means h hitems
    rw [hitems] at hr
    cases hr
    refine ⟨.quot es, ?_, .quotation hes⟩
    rw [Reading.quotation, mapM_expr?_map]

theorem Means.pair {first second : Node} (ha : Means ν τ room first)
    (hb : Means ν τ room second) :
    Means ν τ (room + 1) (.branch .pair [first, second]) := by
  intro reading hr
  simp only [Node.branch, elaborate, List.length_cons, List.length_nil, elaborateAll] at hr
  cases hfirst : elaborate (ν := ν) (τ := τ) first with
  | error failure =>
    rw [hfirst] at hr
    cases hr
  | ok readingFirst =>
    obtain ⟨a, rfl, hmadea⟩ := ha readingFirst hfirst
    cases hsecond : elaborate (ν := ν) (τ := τ) second with
    | error failure =>
      rw [hfirst, hsecond] at hr
      cases hr
    | ok readingSecond =>
      obtain ⟨b, rfl, hmadeb⟩ := hb readingSecond hsecond
      rw [hfirst, hsecond] at hr
      cases hr
      exact ⟨.pair a b, rfl, .pair hmadea hmadeb⟩

/-- **What a node that is read means, if it means anything, is made of what texts can say.** -/
theorem nodewise_means : Nodewise (Means ν τ) where
  comment := comment_means
  boolean := boolean_means
  character := character_means
  number := number_means
  string := string_means
  word := word_means
  quotation := Means.quotation
  pair := Means.pair

/-! ## Programs -/

/-- The text that was left unread has no meaning. -/
theorem unparsed_means (text : List Char) : Means ν τ room (.leaf .unparsed text) := by
  intro reading hr
  simp only [Node.leaf, elaborate, elaborateText] at hr
  cases hr

theorem read_means {text : List Char} {tree : Node} (h : read text room = some tree) :
    ∃ nodes, tree = .branch .program nodes ∧
      ∀ node ∈ nodes, Means ν τ room node := by
  obtain ⟨⟨items, rest⟩, hterms, htree⟩ := Option.map_eq_some_iff.mp h
  have hitems : ∀ node ∈ items, Means ν τ room node := nodewise_means.terms hterms
  cases rest with
  | nil => exact ⟨items, htree.symm, hitems⟩
  | cons c cs =>
    refine ⟨items ++ [.leaf .unparsed (c :: cs)], htree.symm, ?_⟩
    intro node hnode
    rcases List.mem_append.mp hnode with hmem | hmem
    · exact hitems node hmem
    · rw [List.mem_singleton.mp hmem]
      exact unparsed_means _

/-- **Every expression that a text reads as is made of what texts can say.** -/
theorem made_of_parse {text : List Char} {es : List (Expr ν τ)} (h : parse text room = .ok es) :
    ∀ e ∈ es, Made room e := by
  unfold parse at h
  split at h
  · cases h
  · rename_i tree htree
    obtain ⟨nodes, rfl, hnodes⟩ := read_means (ν := ν) (τ := τ) htree
    simp only [Node.branch, elaborate] at h
    cases hall : elaborateAll (ν := ν) (τ := τ) nodes with
    | error failure =>
      rw [hall] at h
      cases h
    | ok readings =>
      obtain ⟨found, rfl, hfound⟩ := elaborateAll_of_means hnodes hall
      simp only [hall, Except.map, mapM_expr?_map] at h
      cases h
      exact hfound

end Grammar
end Leftward
