import Leftward.Grammar.Elaborate
import Leftward.Proofs.Grammar.Tokens
import Leftward.Proofs.Text.Decimal

/-!
# Reading in two steps, as one

The reader makes a tree of nodes and the elaboration gives each node its meaning. Seen from
outside there is one step only: **at a position an expression is read, and something is left**
(`Reads`), and after it another (`ReadsAll`). The rules below are that step for each kind of token
and for the two brackets; a text is understood by putting them together, and no proof about texts
has to look at a node again.

Room and count stand in the relations as they stand in the reader: brackets take one from the room
of what is inside them, and what is read one after the other takes one from the count.
-/

namespace Leftward
namespace Grammar

open Text

variable {ν τ : Type}

/-- In front of the text stands the expression, and behind it the rest. -/
def Reads (fuel room : Nat) (cs : List Char) (e : Expr ν τ) (rest : List Char) : Prop :=
  ∃ node, term fuel room cs = .matched node rest ∧ elaborate node = .ok (.expr e)

/-- In front of the text stand the expressions, at most so many and as many as there are. -/
def ReadsAll (fuel room count : Nat) (cs : List Char) (es : List (Expr ν τ)) (rest : List Char) :
    Prop :=
  ∃ nodes, many (fun cs => spaced (term fuel room cs)) count cs = some (nodes, rest) ∧
    elaborateAll nodes = .ok (es.map .expr)

variable {fuel room count : Nat} {cs mid rest : List Char}

theorem spaced_matched (node : Node) : spaced (.matched node rest) = .matched node (skip rest) :=
  rfl

theorem spaced_unmatched : spaced .unmatched = .unmatched := rfl

/-! ## One after the other -/

theorem ReadsAll.nil (h : term fuel room cs = .unmatched) :
    ReadsAll (ν := ν) (τ := τ) fuel room count cs [] cs := by
  refine ⟨[], ?_, rfl⟩
  cases count with
  | zero => rfl
  | succ count => simp only [many, h, spaced_unmatched]

theorem ReadsAll.cons {e : Expr ν τ} {es : List (Expr ν τ)} (h : Reads fuel room cs e mid)
    (hs : ReadsAll fuel room count (skip mid) es rest) :
    ReadsAll fuel room (count + 1) cs (e :: es) rest := by
  obtain ⟨node, hterm, hnode⟩ := h
  obtain ⟨nodes, hmany, hnodes⟩ := hs
  refine ⟨node :: nodes, ?_, ?_⟩
  · simp only [many, hterm, spaced_matched, hmany, Option.map_some]
  · simp only [elaborateAll, hnode, hnodes, Except.map, List.map_cons]

theorem mapM_expr?_map (es : List (Expr ν τ)) :
    (es.map Reading.expr).mapM Reading.expr? = some es := by
  induction es with
  | nil => rfl
  | cons e es ih =>
    rw [List.map_cons, List.mapM_cons, ih]
    rfl

/-- **A text that is read to its end is a program.** -/
theorem parse_of_readsAll {text : List Char} {es : List (Expr ν τ)}
    (h : ReadsAll text.length room text.length (skip text) es []) : parse text room = .ok es := by
  obtain ⟨nodes, hmany, hnodes⟩ := h
  have hread : read text room = some (.branch .program nodes) := by
    simp only [read, terms, hmany, Option.map_some]
  simp only [parse, hread, Node.branch, elaborate, hnodes, Except.map, mapM_expr?_map]

/-! ## Brackets -/

theorem Reads.quotation {es : List (Expr ν τ)}
    (h : ReadsAll fuel room fuel (skip cs) es (']' :: rest)) :
    Reads fuel (room + 1) ('[' :: cs) (.quot es) rest := by
  obtain ⟨nodes, hmany, hnodes⟩ := h
  refine ⟨.branch .quotation nodes, alternatives_quotation ?_, ?_⟩
  · simp only [Grammar.quotation, hmany]
  · simp only [Node.branch, elaborate, hnodes, Except.map, Reading.quotation, mapM_expr?_map]

theorem Reads.pair {a b : Expr ν τ} {behind : List Char} (ha : Reads fuel room (skip cs) a mid)
    (hb : Reads fuel room (skip mid) b behind) (hclose : skip behind = ')' :: rest) :
    Reads fuel (room + 1) ('(' :: cs) (.pair a b) rest := by
  obtain ⟨first, hterma, hfirst⟩ := ha
  obtain ⟨second, htermb, hsecond⟩ := hb
  refine ⟨.branch .pair [first, second], alternatives_pair ?_, ?_⟩
  · simp only [Grammar.pair, hterma, htermb, spaced_matched, Read.andThen, hclose]
  · simp only [Node.branch, elaborate, List.length_cons, List.length_nil, elaborateAll, hfirst,
      hsecond, Except.map]
    rfl

/-! ## Tokens -/

/-- What is an alternative whatever stands inside brackets is a term in any room. -/
theorem term_of_alternatives {node : Node}
    (h : ∀ inner, alternatives fuel inner cs = .matched node rest) :
    term fuel room cs = .matched node rest := by
  cases room with
  | zero => exact h none
  | succ room => exact h _

theorem Reads.character (c : Char) :
    Reads (ν := ν) (τ := τ) fuel room ('.' :: c :: rest) (.chr c) rest := by
  refine ⟨.leaf .character ['.', c], term_of_alternatives fun _ => alternatives_character c, ?_⟩
  simp [Node.leaf, elaborate, elaborateText, Except.map]

theorem Reads.word {name : List Char} (hw : IsWord name) (hr : Stops isWordChar rest) :
    Reads (ν := ν) (τ := τ) fuel room (name ++ rest) (.word (String.ofList name)) rest := by
  refine ⟨.leaf .word name, term_of_alternatives fun _ => alternatives_word hw hr, ?_⟩
  simp [Node.leaf, elaborate, elaborateText, Except.map]

theorem Reads.string {d : Char} {text : List Char} (hd : isDelimiter d = true) (ht : d ∉ text) :
    Reads (ν := ν) (τ := τ) fuel room (d :: (text ++ d :: rest)) (.quot (text.map .chr)) rest := by
  refine ⟨.leaf .string (d :: (text ++ [d])), term_of_alternatives fun _ =>
    alternatives_string hd ht, ?_⟩
  simp [Node.leaf, elaborate, elaborateText, Except.map]

/-- The numeral of a number that is not too large reads as the number. -/
theorem Reads.number {n : Nat} (hn : n < Decimal.tooLarge) (hr : Stops Char.isDigit rest) :
    Reads (ν := ν) (τ := τ) fuel room (n.repr.toList ++ rest) (.num n) rest := by
  refine ⟨.leaf .number n.repr.toList, term_of_alternatives fun _ =>
    alternatives_number (Decimal.repr_ne_nil n) (fun _ => Decimal.isDigit_of_mem_repr) hr, ?_⟩
  simp only [Node.leaf, elaborate, elaborateText, String.toList_ofList, Decimal.read_repr hn,
    Except.map]

end Grammar
end Leftward
