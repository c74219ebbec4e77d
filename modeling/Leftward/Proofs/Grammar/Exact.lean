import Leftward.Proofs.Grammar.Sound
import Leftward.Proofs.Grammar.Unambiguous

/-!
# The reader and the rules

The reader tries one alternative after the other, counts down as it goes and puts off what its
nodes mean; the rules know nothing of that. **Both accept the same texts, and as the same
expressions** (`parse_eq_ok_iff_derives`): nothing that the rules derive is missed, nothing else is
accepted, and a text is read in one way only.
-/

namespace Leftward
namespace Grammar

open Text

variable {ν τ : Type} {room : Nat} {rest : List Char} {es : List (Expr ν τ)}

/-! ## A text and its nodes -/

/-- What is left unread as a node, if anything is. -/
def leftover : List Char → List Node
  | [] => []
  | c :: cs => [.leaf .unparsed (c :: cs)]

/-- The expressions that the nodes of a program mean. -/
def meaning (nodes : List Node) : Except (Failure ν τ) (List (Expr ν τ)) :=
  match elaborateAll nodes with
  | .error failure => .error failure
  | .ok readings =>
    match readings.mapM Reading.expr? with
    | some es => .ok es
    | none => .error (.breakdown .notAnExpression)

theorem read_eq_leftover (text : List Char) (room : Nat) :
    read text room = (terms text.length text room).map fun found =>
      .branch .program (found.1 ++ leftover found.2) := by
  unfold read
  congr 1
  funext ⟨items, rest⟩
  cases rest with
  | nil => rw [leftover, List.append_nil]
  | cons c cs => rfl

/-- Parsing is reading and finding the meaning of what was read and of what was left. -/
theorem parse_eq_meaning (text : List Char) (room : Nat) :
    parse (ν := ν) (τ := τ) text room =
      match terms text.length text room with
      | none => .error Cause.nestedTooDeeply.failure
      | some (nodes, rest) => meaning (nodes ++ leftover rest) := by
  rw [parse, read_eq_leftover]
  cases terms text.length text room with
  | none => rfl
  | some found =>
    simp only [Option.map_some, Node.branch, elaborate, meaning]
    cases elaborateAll (ν := ν) (τ := τ) (found.1 ++ leftover found.2) <;> rfl

theorem meaning_eq_ok {nodes : List Node} (h : meaning nodes = .ok es) :
    elaborateAll nodes = .ok (es.map .expr) := by
  unfold meaning at h
  split at h
  · cases h
  · rename_i readings hreadings
    split at h
    · rename_i found hfound
      cases h
      rw [hreadings, mapM_expr?_eq_some hfound]
    · cases h

/-- What is left unread has no meaning. -/
theorem leftover_eq_nil {before : List Node} {readings : List (Reading ν τ)}
    (h : elaborateAll (before ++ leftover rest) = .ok readings) : rest = [] := by
  induction before generalizing readings with
  | nil =>
    cases rest with
    | nil => rfl
    | cons c cs => cases h
  | cons node before ih =>
    obtain ⟨_, others, _, hothers, _⟩ := elaborateAll_cons_eq_ok h
    exact ih hothers

/-- A text that is a program is read to its end. -/
theorem readsAll_of_parse {text : List Char} (h : parse text room = .ok es) :
    ReadsAll text.length room text.length (skip text) es [] := by
  rw [parse_eq_meaning] at h
  split at h
  · cases h
  · rename_i nodes rest hterms
    have hnodes := meaning_eq_ok h
    obtain rfl := leftover_eq_nil hnodes
    rw [leftover, List.append_nil] at hnodes
    exact ⟨nodes, hterms, hnodes⟩

/-! ## A text and its derivations -/

theorem parse_of_derives {depth digits : Nat} {text : List Char} (hdepth : depth ≤ room)
    (hdigits : digits ≤ Decimal.maxDigits) (h : Derives depth digits text es) :
    parse text room = .ok es := by
  obtain ⟨gap, body, hgap, hbody⟩ := h
  have hshort := DerivesTerm.shortens (ν := ν) (τ := τ) digits depth
  have hlength := hgap.length_le
  have hcount := hbody.length_le (Spaced.shortens hshort)
  refine parse_of_readsAll ?_
  rw [hgap.skip_eq]
  exact hbody.readsAll hshort (fun hlen hterm => hterm.reads hdigits hdepth hlen) (.inl rfl) hlength
    (by omega)

theorem derives_of_parse {text : List Char} (h : parse text room = .ok es) :
    Derives room Decimal.maxDigits text es :=
  ⟨_, _, run_takeWhile _ _, (readsAll_of_parse h).sequence Reads.derivesTerm⟩

/-- **The reader and the rules accept the same texts, and as the same expressions.** What the rules
derive with no more brackets and no longer numerals than the reader allows is read as they have it;
and with more of them, they derive nothing else of a text that is read. -/
theorem parse_eq_ok_iff_derives (room : Nat) :
    (∀ (text : List Char) (es : List (Expr ν τ)),
      parse text room = .ok es ↔ Derives room Decimal.maxDigits text es) ∧
    ∀ (depth digits : Nat) (text : List Char) (es : List (Expr ν τ)), Derives depth digits text es →
      (depth ≤ room → digits ≤ Decimal.maxDigits → parse text room = .ok es) ∧
      ∀ es', parse text room = .ok es' → es' = es := by
  refine ⟨fun text es => ⟨derives_of_parse, ?_⟩, fun depth digits text es h => ⟨?_, ?_⟩⟩
  · exact parse_of_derives (Nat.le_refl _) (Nat.le_refl _)
  · exact fun hdepth hdigits => parse_of_derives hdepth hdigits h
  · intro es' h'
    -- Within bounds that are large enough for both there is one derivation only.
    have hlarge := h.mono (Nat.le_max_left depth room)
      (Nat.le_max_left digits Decimal.maxDigits)
    have hlarge' := (derives_of_parse h').mono (Nat.le_max_right depth room)
      (Nat.le_max_right digits Decimal.maxDigits)
    exact hlarge'.unique hlarge

/-- A truth value and a word right behind it are the two terms of a pair. -/
theorem parse_eq_ok_iff_derives_pair :
    Derives 1 0 ['(', 'T', 'r', 'u', 'e', 'd', ')']
        [(.pair (.bool true) (.word "d") : Expr Unit Unit)] ∧
      0 ≤ Decimal.maxDigits ∧
      parse ['(', 'T', 'r', 'u', 'e', 'd', ')'] 1 =
        .ok [(.pair (.bool true) (.word "d") : Expr Unit Unit)] := by
  have hfirst : DerivesTerm 0 0 (letters true ++ ['d', ')']) (.bool true : Expr Unit Unit)
      ['d', ')'] :=
    derivesTerm_iff.mpr (first_iff.mpr ⟨.boolean, .boolean, by simp⟩)
  have hsecond : DerivesTerm 0 0 ['d', ')'] (.word "d" : Expr Unit Unit) [')'] :=
    derivesTerm_iff.mpr (first_iff.mpr
      ⟨.word, .word rfl (run_takeWhile isWordChar [')']), fun _ => by decide⟩)
  have hpair : DerivesTerm 0 1 ('(' :: (letters true ++ ['d', ')']))
      (.pair (.bool true) (.word "d") : Expr Unit Unit) [] :=
    derivesTerm_iff.mpr (first_iff.mpr
      ⟨.pair, .pair rfl (run_takeWhile isSkipped _) (.skip hfirst) (.skip hsecond), by simp⟩)
  have hderives : Derives 1 0 ('(' :: (letters true ++ ['d', ')']))
      [(.pair (.bool true) (.word "d") : Expr Unit Unit)] :=
    ⟨[], _, run_takeWhile isSkipped _, .cons (.skip hpair) .nil⟩
  exact ⟨hderives, by decide,
    ((parse_eq_ok_iff_derives 1).2 1 0 _ _ hderives).1 (by decide) (by decide)⟩

end Grammar
end Leftward
