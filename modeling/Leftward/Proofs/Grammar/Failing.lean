import Leftward.Proofs.Grammar.Exact

/-!
# What can be wrong with a text

A text that is no program is so in one of three ways (`parse_eq_error`): its brackets are nested too
deeply, there is something in it that begins no term, or **a number literal has too many digits**.
The first two are faults of the language. The third is none, so it must be known where it comes
from: the literals of a text are those that its syntax tree holds (`numerals`), whether the text is
a program or not.

The elaboration could fail in other ways, on trees that the reader does not make.
-/

namespace Leftward
namespace Grammar

variable {ν τ : Type}

/-! ## Number literals -/

mutual

/-- The texts of the numbers in a tree, in order. -/
def Node.numerals : Node → List String
  | .scalar _ => []
  | .list items => numeralsAll items
  | .node tag text _ children =>
    (if tag = .number then text.toList else []) ++ numeralsAll children

/-- The texts of the numbers in the trees, in order. -/
def Node.numeralsAll : List Node → List String
  | [] => []
  | tree :: rest => tree.numerals ++ numeralsAll rest

end

/-- The number literals of a text, as they are written. A text whose brackets are nested too deeply
has no tree, and none are counted. -/
def numerals (text : List Char) (room : Nat) : List String :=
  match read text room with
  | some tree => tree.numerals
  | none => []

theorem Node.mem_numeralsAll {nodes : List Node} {numeral : String} :
    numeral ∈ numeralsAll nodes ↔ ∃ node ∈ nodes, numeral ∈ node.numerals := by
  induction nodes with
  | nil => simp [numeralsAll]
  | cons node rest ih => simp [numeralsAll, ih]

theorem Node.numerals_branch {tag : Tag} (htag : tag ≠ .number) (children : List Node) :
    (branch tag children).numerals = numeralsAll children := by
  rw [branch, numerals, if_neg htag, List.nil_append]

/-! ## Trees that are read -/

/-- If the node has no meaning, a number in it is too long. -/
def Overlong (ν τ : Type) (node : Node) : Prop :=
  ∀ failure : Failure ν τ, elaborate node = .error failure →
    failure = .breakdown .notANumeral ∧
      ∃ numeral ∈ node.numerals, Decimal.maxDigits < numeral.length

variable {room : Nat} {cs rest : List Char} {node : Node} {failure : Failure ν τ}

theorem error_of_map {ε α β : Type} {r : Except ε α} {f : α → β} {e : ε}
    (h : r.map f = .error e) : r = .error e := by
  cases r with
  | error found =>
    cases h
    rfl
  | ok value => cases h

/-- Nodes that have no meaning owe it to one of them. -/
theorem elaborateAll_eq_error {nodes : List Node} (h : elaborateAll nodes = .error failure) :
    ∃ node ∈ nodes, elaborate node = .error failure := by
  induction nodes with
  | nil => cases h
  | cons node rest ih =>
    rw [elaborateAll] at h
    cases hnode : elaborate (ν := ν) (τ := τ) node with
    | error found =>
      rw [hnode] at h
      cases h
      exact ⟨node, List.mem_cons_self, hnode⟩
    | ok reading =>
      rw [hnode] at h
      obtain ⟨x, hx, hfails⟩ := ih (error_of_map h)
      exact ⟨x, List.mem_cons_of_mem node hx, hfails⟩

/-- Brackets have a meaning if what is inside them has. -/
theorem Overlong.of_children {tag : Tag} {children : List Node} (htag : tag ≠ .number)
    (hchildren : ∀ node ∈ children, Overlong ν τ node)
    (h : ∀ failure : Failure ν τ, elaborate (.branch tag children) = .error failure →
      elaborateAll children = .error failure) : Overlong ν τ (.branch tag children) := by
  intro failure hfails
  obtain ⟨node, hnode, hnone⟩ := elaborateAll_eq_error (h failure hfails)
  obtain ⟨hfailure, numeral, hnumeral, hlong⟩ := hchildren node hnode failure hnone
  refine ⟨hfailure, numeral, ?_, hlong⟩
  rw [Node.numerals_branch htag]
  exact Node.mem_numeralsAll.mpr ⟨node, hnode, hnumeral⟩

/-- A leaf has a meaning if its text has. -/
theorem Overlong.of_text {tag : Tag} {text : List Char} {e : Expr ν τ}
    (htag : tag = .number ∨ tag = .character ∨ tag = .string ∨ tag = .word ∨ tag = .comment)
    (h : elaborateText tag text = .ok e) : Overlong ν τ (.leaf tag text) := by
  intro failure hfails
  rw [elaborate_leaf htag, h] at hfails
  cases hfails

theorem overlong_boolean (h : boolean cs = .matched node rest) : Overlong ν τ node := by
  obtain ⟨value, rfl⟩ := boolean_eq_matched h
  intro failure hfails
  cases hfails

/-- A run of digits has a meaning unless there are too many of them. -/
theorem overlong_number (h : number cs = .matched node rest) : Overlong ν τ node := by
  obtain ⟨digits, hne, hdigits, rfl⟩ := number_eq_matched h
  intro failure hfails
  rw [elaborate_leaf (by simp), elaborateText, Decimal.read_digits hne hdigits] at hfails
  by_cases hshort : digits.length ≤ Decimal.maxDigits
  · rw [if_pos hshort] at hfails
    cases hfails
  · rw [if_neg hshort] at hfails
    cases hfails
    refine ⟨rfl, String.ofList digits, ?_, ?_⟩
    · simp [Node.leaf, Node.numerals]
    · rw [String.length_ofList]
      exact Nat.lt_of_not_le hshort

/-- **What is read has a meaning, unless a number in it is too long.** -/
theorem nodewise_overlong : Nodewise fun _ => Overlong ν τ where
  comment h := by
    obtain ⟨line, rfl⟩ := comment_eq_matched h
    exact .of_text (by simp) rfl
  boolean := overlong_boolean
  character h := by
    obtain ⟨c, rfl⟩ := character_eq_matched h
    exact .of_text (by simp) rfl
  number := overlong_number
  string h := by
    obtain ⟨text, rfl⟩ := string_eq_matched h
    exact .of_text (by simp) rfl
  word _ _ h := by
    obtain ⟨c, behind, -, -, rfl⟩ := word_eq_matched h
    exact .of_text (by simp) rfl
  quotation {room items} h := by
    refine .of_children (by simp) h fun failure hfails => ?_
    simp only [Node.branch, elaborate] at hfails
    exact error_of_map hfails
  pair {room first second} ha hb := by
    refine .of_children (by simp) (by simp [ha, hb]) fun failure hfails => ?_
    simp only [Node.branch, elaborate, List.length_cons, List.length_nil] at hfails
    exact error_of_map hfails

/-! ## Texts -/

theorem numerals_eq {text : List Char} {nodes : List Node} {rest : List Char}
    (h : terms text.length text room = some (nodes, rest)) :
    numerals text room = Node.numeralsAll (nodes ++ leftover rest) := by
  rw [numerals, read_eq_leftover, h]
  exact Node.numerals_branch (by simp) _

/-- The nodes of a text mean expressions or nothing. -/
theorem means_of_terms {text : List Char} {nodes : List Node} {rest : List Char}
    (h : terms text.length text room = some (nodes, rest)) :
    ∀ node ∈ nodes ++ leftover rest, Means ν τ room node := by
  have hread : read text room = some (.branch .program (nodes ++ leftover rest)) := by
    rw [read_eq_leftover, h]
    rfl
  obtain ⟨found, htree, hfound⟩ := read_means (ν := ν) (τ := τ) hread
  cases htree
  exact hfound

theorem meaning_eq_error {nodes : List Node} (hmeans : ∀ node ∈ nodes, Means ν τ room node)
    (h : meaning nodes = .error failure) : ∃ node ∈ nodes, elaborate node = .error failure := by
  unfold meaning at h
  split at h
  · rename_i found hfails
    cases h
    exact elaborateAll_eq_error hfails
  · rename_i readings hreadings
    obtain ⟨es, rfl, -⟩ := elaborateAll_of_means hmeans hreadings
    rw [mapM_expr?_map] at h
    cases h

/-- **What is wrong with a text that is no program.** -/
theorem parse_eq_error {text : List Char} (h : parse text room = .error failure) :
    failure = Cause.nestedTooDeeply.failure ∨
      (∃ unread, failure = (Cause.unparsed unread).failure) ∨
      failure = .breakdown .notANumeral ∧
        ∃ numeral ∈ numerals text room, Decimal.maxDigits < numeral.length := by
  rw [parse_eq_meaning] at h
  split at h
  · cases h
    exact .inl rfl
  · rename_i nodes rest hterms
    obtain ⟨node, hnode, hfails⟩ := meaning_eq_error (means_of_terms hterms) h
    rcases List.mem_append.mp hnode with hmem | hmem
    · obtain ⟨hfailure, numeral, hnumeral, hlong⟩ :=
        nodewise_overlong.terms hterms node hmem failure hfails
      refine .inr (.inr ⟨hfailure, numeral, ?_, hlong⟩)
      rw [numerals_eq hterms]
      exact Node.mem_numeralsAll.mpr ⟨node, hnode, hnumeral⟩
    · cases rest with
      | nil => cases hmem
      | cons c cs =>
        obtain rfl := List.mem_singleton.mp hmem
        cases hfails
        exact .inr (.inl ⟨_, rfl⟩)

end Grammar
end Leftward
