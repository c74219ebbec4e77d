import Mathlib.Data.List.Forall2
import Leftward.Program
import Leftward.Proofs.Grammar.Joining
import Leftward.Proofs.Prelude.Foundation

/-!
# What a program is made of

Sources are read as one text, and yet **each of them reads as it would alone**
(`parse_join_assemble`): a program is what its first source reads as, then what the second does, and
so on, then what the prelude reads as, then the primitives. It makes no difference where a source
ends: in a comment, right behind a word, or before it has begun. Only of the last text must it be
known where it ends, since a text that does not read on its own could do so with another below it.
-/

namespace Leftward
namespace Program

open Grammar

variable {ν τ : Type} {room : Nat}

/-- Each of the texts reads on its own, as one of the lists of expressions. -/
def ReadAlone (room : Nat) (texts : List (List Char)) (parts : List (List (Expr ν τ))) : Prop :=
  List.Forall₂ (fun text es => parse text room = .ok es) texts parts

theorem join_singleton (text : List Char) : join [text] = text := List.intercalate_singleton

/-- A text that reads on its own reads the same in front of any others. -/
theorem parse_join_cons {text : List Char} {es : List (Expr ν τ)} (h : parse text room = .ok es)
    (texts : List (List Char)) :
    parse (join (text :: texts)) room = (parse (join texts) room).map (es ++ ·) := by
  cases texts with
  | nil =>
    have hnothing : parse (ν := ν) (τ := τ) (join []) room = .ok [] := by
      cases room <;> rfl
    rw [join_singleton, h, hnothing, Except.map, List.append_nil]
  | cons next texts =>
    rw [join, List.intercalate_cons_cons, List.append_assoc]
    exact parse_above h (join (next :: texts))

theorem parse_join_append {texts : List (List Char)} {parts : List (List (Expr ν τ))}
    (h : ReadAlone room texts parts) (below : List (List Char)) :
    parse (join (texts ++ below)) room = (parse (join below) room).map (parts.flatten ++ ·) := by
  induction h with
  | nil => cases hbelow : parse (ν := ν) (τ := τ) (join below) room <;> simp [hbelow, Except.map]
  | cons htext _ ih =>
    rw [List.cons_append, parse_join_cons htext, ih]
    cases parse (ν := ν) (τ := τ) (join below) room with
    | error failure => rfl
    | ok es => simp only [Except.map, List.flatten_cons, List.append_assoc]

/-- **A program is what its sources read as, in front of what it is without them.** -/
theorem assemble_of_readAlone {texts : List (List Char)} {parts : List (List Term)}
    (h : ReadAlone room texts parts) (store : Source.Store) (choice : PreludeChoice) :
    assemble store choice texts room =
      (assemble store choice [] room).map (parts.flatten ++ ·) := by
  rw [assemble, assemble]
  cases preludeTexts store choice with
  | error failure => rfl
  | ok last =>
    simp only [parse_join_append h, List.nil_append]
    cases parse (ν := Primitive) (τ := Unit) (join last) room with
    | error failure => rfl
    | ok terms => simp only [Except.map, List.append_assoc]

/-! ## The prelude -/

/-- What the prelude reads as alone. -/
def preludeTerms (store : Source.Store) (choice : PreludeChoice) (room : Nat) :
    Except (Failure Primitive Unit) (List Term) :=
  match choice with
  | .absent => .ok []
  | .shipped => parse preludeText.toList room
  | .file path =>
    match Source.load store (Source.Path.ofString path).toString with
    | .error failure => .error failure
    | .ok text => parse text room

theorem preludeTerms_eq (store : Source.Store) (choice : PreludeChoice) (room : Nat) :
    preludeTerms store choice room =
      match preludeTexts store choice with
      | .error failure => .error failure
      | .ok last => parse (join last) room := by
  cases choice with
  | absent => cases room <;> rfl
  | shipped => simp only [preludeTerms, preludeTexts, join_singleton]
  | file path =>
    rw [preludeTerms, preludeTexts, Source.loadAll]
    cases Source.load (ν := Primitive) (τ := Unit) store (Source.Path.ofString path).toString with
    | error failure => rfl
    | ok text => simp only [Source.loadAll, Except.map, join_singleton]

/-- A program without sources is what the prelude reads as, and the primitives. -/
theorem assemble_nil (store : Source.Store) (choice : PreludeChoice) (room : Nat) :
    assemble store choice [] room = (preludeTerms store choice room).map (· ++ primitives) := by
  rw [assemble, preludeTerms_eq]
  cases preludeTexts store choice with
  | error failure => rfl
  | ok last =>
    simp only [List.nil_append]
    cases parse (ν := Primitive) (τ := Unit) (join last) room <;> rfl

/-- The shipped prelude is a program. -/
theorem exists_parse_preludeText (hroom : 3 ≤ room) :
    ∃ prelude : List Term, parse preludeText.toList room = .ok prelude := by
  obtain ⟨prelude, hparse, -⟩ := Prelude.exists_defines_preludeText hroom
  exact ⟨prelude, hparse⟩

/-- **Joining sources never changes how they read.** If all texts but the last read on their own,
they read as one text exactly if the last one does, as what each reads as, in order; and if it does
not, with its failure. So a program whose sources read on their own is what they read as, then what
the prelude reads as, then the primitives; and with the shipped prelude there always is one, given
room for three brackets inside each other. -/
theorem parse_join_assemble (room : Nat) :
    (∀ (texts : List (List Char)) (parts : List (List Term)), ReadAlone room texts parts →
      ∀ last, parse (join (texts ++ [last])) room =
        (parse last room).map (parts.flatten ++ ·)) ∧
    ∀ (texts : List (List Char)) (parts : List (List Term)), ReadAlone room texts parts →
      ∀ store : Source.Store,
        (∀ choice, assemble store choice texts room =
          (preludeTerms store choice room).map (parts.flatten ++ · ++ primitives)) ∧
        (3 ≤ room → ∃ prelude, preludeTerms store .shipped room = .ok prelude ∧
          assemble store .shipped texts room = .ok (parts.flatten ++ prelude ++ primitives)) := by
  refine ⟨fun texts parts h last => ?_, fun texts parts h store => ?_⟩
  · rw [parse_join_append h, join_singleton]
  · have hassemble : ∀ choice, assemble store choice texts room =
        (preludeTerms store choice room).map (parts.flatten ++ · ++ primitives) := by
      intro choice
      rw [assemble_of_readAlone h, assemble_nil]
      cases preludeTerms store choice room with
      | error failure => rfl
      | ok prelude => simp only [Except.map, List.append_assoc]
    refine ⟨hassemble, fun hroom => ?_⟩
    obtain ⟨prelude, hprelude⟩ := exists_parse_preludeText hroom
    have hshipped : preludeTerms store .shipped room = .ok prelude := hprelude
    exact ⟨prelude, hshipped, by rw [hassemble, hshipped, Except.map]⟩

/-- Sources that end in a comment, right behind a word and before they have begun. -/
theorem parse_join_assemble_ends :
    ReadAlone 3 [['-', '-', 'x'], ['d'], []] [[.comment "x"], [.word "d"], ([] : List Term)] ∧
      parse (join [['-', '-', 'x'], ['d'], [], ['1']]) 3 =
        .ok [.comment "x", .word "d", (.num 1 : Term)] ∧
      assemble (fun _ => .error .missing) .absent [['-', '-', 'x'], ['d'], []] 3 =
        .ok ([.comment "x", .word "d"] ++ primitives) ∧
      ∃ prelude, assemble (fun _ => .error .missing) .shipped [['-', '-', 'x'], ['d'], []] 3 =
        .ok ([.comment "x", .word "d"] ++ prelude ++ primitives) := by
  have halone :
      ReadAlone 3 [['-', '-', 'x'], ['d'], []] [[.comment "x"], [.word "d"], ([] : List Term)] :=
    .cons rfl (.cons rfl (.cons rfl .nil))
  have hlast : parse ['1'] 3 = .ok [(.num 1 : Term)] := rfl
  obtain ⟨hjoin, hassemble⟩ := parse_join_assemble 3
  obtain ⟨habsent, hshipped⟩ := hassemble _ _ halone fun _ => .error .missing
  obtain ⟨prelude, -, hprelude⟩ := hshipped (Nat.le_refl 3)
  refine ⟨halone, ?_, habsent .absent, prelude, hprelude⟩
  exact (hjoin _ _ halone ['1']).trans (by rw [hlast]; rfl)

end Program
end Leftward
