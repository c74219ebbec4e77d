import Leftward.Program
import Leftward.Proofs.Expr.Comparison
import Leftward.Proofs.Grammar.Exact
import Leftward.Proofs.Prelude.Words

/-!
# What a program stands on

The contracts of the prelude's words ask that the shipped definitions are the nearest of their
names. **With the shipped prelude they are there before a program's own words are read**
(`yields_standing`): the stack that a program without sources of its own comes to consists of them.
What their bodies are is thus settled by the prelude's text, which reads as one definition after the
other with comments in between (`exists_defines_preludeText`).
-/

namespace Leftward
namespace Prelude

open Leftward.Expr

variable {ν τ : Type}

/-! ## The nearest definitions, computed -/

/-- Whether a body is one native alone, and which. -/
def lone? : List (Expr ν τ) → Option (ν × τ)
  | [native op tag] => some (op, tag)
  | _ => none

theorem eq_of_lone? {body : List (Expr ν τ)} {op : ν} {tag : τ} (h : lone? body = some (op, tag)) :
    body = [native op tag] := by
  unfold lone? at h
  split at h
  · cases h
    rfl
  · cases h

/-- The bodies of the prelude's words are made of what the language compares. -/
theorem compareAll_body (w : Word) :
    compareAll .language (w.body : List (Expr ν τ)) w.body = .ok true := by
  cases w <;> rfl

theorem shipped_iff {embed : Primitive → ν} {own : Primitive → τ} {values : Stack ν τ} :
    Shipped embed own values ↔
      (∀ p ∈ Primitive.all, (Stack.lookup p.name values).bind lone? = some (embed p, own p)) ∧
      ∀ w ∈ Word.all, (Stack.lookup w.name values).map
        (fun body => (compareAll .language w.body body).decisive) = some false := by
  constructor
  · intro h
    refine ⟨fun p _ => ?_, fun w _ => ?_⟩
    · rw [h.primitive p]
      rfl
    · rw [h.prelude w, Option.map_some, compareAll_body]
      rfl
  · rintro ⟨hprimitives, hwords⟩
    refine ⟨fun p => ?_, fun w => ?_⟩
    · obtain ⟨body, hbody, hlone⟩ :=
        Option.bind_eq_some_iff.mp (hprimitives p (Primitive.mem_all p))
      rw [hbody, eq_of_lone? hlone]
    · obtain ⟨body, hbody, hsame⟩ := Option.map_eq_some_iff.mp (hwords w (Word.mem_all w))
      have hagreed := Verdict.eq_agreed_of_not_decisive (Bool.not_eq_true _ ▸ hsame)
      rw [hbody, ← eq_of_compareAll (fun x _ y => eq_of_compare) hagreed]

instance Shipped.decidable [DecidableEq ν] [DecidableEq τ] {embed : Primitive → ν}
    {own : Primitive → τ} {values : Stack ν τ} : Decidable (Shipped embed own values) :=
  decidable_of_iff' _ shipped_iff

/-! ## The text -/

/-- The definition of the word, as it lies on the stack. -/
def Word.definition (w : Word) : Term := .defn w.name w.body ()

/-- Whether a program defines the words in order and does nothing else. -/
def defines : List Term → List Word → Bool
  | comment _ :: program, ws => defines program ws
  | word d :: word n :: quot body :: program, w :: ws =>
    decide (d = Primitive.define.name) && decide (n = w.name) &&
      !(compareAll .language w.body body).decisive && defines program ws
  | [], [] => true
  | _, _ => false

set_option maxRecDepth 10000 in
/-- **The prelude's text reads as the definitions of its words**, and nothing but comments. It has
no more than three brackets inside each other. -/
theorem exists_defines_preludeText {room : Nat} (hroom : 3 ≤ room) :
    ∃ prelude, Grammar.parse preludeText.toList room = .ok prelude ∧
      defines prelude Word.all = true := by
  have hread : ((Grammar.parse preludeText.toList 3).toOption.any (defines · Word.all)) = true := by
    unfold preludeText
    -- As a list of characters the text can be computed with.
    change ((Grammar.parse (String.ofList _).toList 3).toOption.any _) = true
    rw [String.toList_ofList]
    decide +kernel
  cases hparse : Grammar.parse (ν := Primitive) (τ := Unit) preludeText.toList 3 with
  | error failure =>
    rw [hparse] at hread
    cases hread
  | ok prelude =>
    rw [hparse] at hread
    have hderives := Grammar.derives_of_parse hparse
    exact ⟨prelude, Grammar.parse_of_derives hroom (Nat.le_refl _) hderives, hread⟩

/-! ## The run -/

/-- What a program stands on. -/
def standing : Stack Primitive Unit := Word.all.map Word.definition ++ Program.primitives

theorem shipped_standing : Shipped id (fun _ => ()) standing := by
  decide +kernel

theorem isDefn_standing : ∀ e ∈ standing, e.isDefn = true := by
  decide +kernel

theorem lookup_definitions {name : String} {ws : List Word} (h : ∀ w ∈ ws, w.name ≠ name)
    (values : Stack Primitive Unit) :
    Stack.lookup name (ws.map Word.definition ++ values) = Stack.lookup name values := by
  induction ws with
  | nil => rfl
  | cons w ws ih =>
    have hw : w.name ≠ name := h w List.mem_cons_self
    have hnone : w.definition.bodyOf? name = none := if_neg hw
    rw [List.map_cons, List.cons_append, Stack.lookup, List.findSome?_cons, hnone]
    exact ih fun v hv => h v (List.mem_cons_of_mem w hv)

/-- The words of the prelude have names of their own. -/
theorem nodup_names : (Word.all.map Word.name).Nodup := by
  decide +kernel

/-- No primitive has the name of a word of the prelude. -/
theorem lookup_name (w : Word) : Stack.lookup w.name Program.primitives = none := by
  have hall : ∀ v ∈ Word.all, (Stack.lookup v.name Program.primitives).isNone = true := by
    decide +kernel
  exact Option.isNone_iff_eq_none.mp (hall w (Word.mem_all w))

theorem lookup_define (ws : List Word) :
    Stack.lookup Primitive.define.name (ws.map Word.definition ++ Program.primitives) =
      some [native .define ()] := by
  have hdefined : Stack.lookup Primitive.define.name Program.primitives =
      some [native .define ()] := rfl
  have hapart : ∀ v ∈ Word.all, v.name ≠ Primitive.define.name := by decide
  rw [lookup_definitions (fun v _ => hapart v (Word.mem_all v)), hdefined]

/-- A definition that is read lies on the stack. -/
theorem reads_definition {w : Word} {values : Stack Primitive Unit}
    (hdefine : Stack.lookup Primitive.define.name values = some [native .define ()])
    (hname : Stack.lookup w.name values = none) (rest : List Term) :
    ∃ script, Reaches Primitive.host script
      (quot w.body :: word w.name :: word Primitive.define.name :: rest) values
      rest (w.definition :: values) := by
  have hword : Inert Primitive.host (quot w.body :: values) (word w.name) :=
    inert_word_iff.mpr hname
  have hcalled : Stack.lookup Primitive.define.name (word w.name :: quot w.body :: values) =
      some [native .define ()] := hdefine
  have hfires (tag : Unit) :
      Primitive.host.act .define tag (word w.name :: quot w.body :: values) =
        .applied [w.definition] values := rfl
  have hdefinition : Inert Primitive.host values w.definition := trivial
  exact ⟨_, (Reaches.pushQuot w.body).trans ((Reaches.push hword).trans
    ((Reaches.expand hcalled).trans ((Reaches.fire hfires).trans (Reaches.push hdefinition))))⟩

/-- **A program of definitions leaves them on the stack**, if they have names of their own. -/
theorem reads_definitions {program : List Term} {ws : List Word} (h : defines program ws = true)
    (hnames : (ws.map Word.name).Nodup) (rest : List Term) :
    ∃ script, Reaches Primitive.host script (program.reverse ++ rest) Program.primitives rest
      (ws.map Word.definition ++ Program.primitives) := by
  -- A program is read from its end: the definitions further on in it are on the stack already.
  fun_induction defines program ws generalizing rest with
  | case1 text program ws ih =>
    obtain ⟨script, hprogram⟩ := ih h hnames (comment text :: rest)
    rw [List.reverse_cons, List.append_assoc]
    exact ⟨_, hprogram.trans .erase⟩
  | case2 d n body program w ws ih =>
    simp only [Bool.and_eq_true, decide_eq_true_eq, Bool.not_eq_true'] at h
    obtain ⟨⟨⟨rfl, rfl⟩, hbody⟩, hprogram⟩ := h
    have hagreed := Verdict.eq_agreed_of_not_decisive (Bool.not_eq_true _ ▸ hbody)
    obtain rfl := eq_of_compareAll (fun x _ y => eq_of_compare) hagreed
    rw [List.map_cons, List.nodup_cons] at hnames
    obtain ⟨script, hbefore⟩ := ih hprogram hnames.2
      (quot w.body :: word w.name :: word Primitive.define.name :: rest)
    have hfresh : ∀ v ∈ ws, v.name ≠ w.name := fun v hv hsame =>
      hnames.1 (hsame ▸ List.mem_map_of_mem hv)
    have hname : Stack.lookup w.name (ws.map Word.definition ++ Program.primitives) = none := by
      rw [lookup_definitions hfresh, lookup_name]
    obtain ⟨script', hdefinition⟩ := reads_definition (lookup_define ws) hname rest
    simp only [List.reverse_cons, List.append_assoc, List.singleton_append]
    exact ⟨_, hbefore.trans hdefinition⟩
  | case3 => exact ⟨_, .refl⟩
  | case4 => cases h

theorem assemble_of_parse {store : Source.Store} {choice : PreludeChoice}
    {texts last : List (List Char)} {room : Nat} {terms : List Term}
    (hlast : Program.preludeTexts store choice = .ok last)
    (hparse : Grammar.parse (Program.join (texts ++ last)) room = .ok terms) :
    Program.assemble store choice texts room = .ok (terms ++ Program.primitives) := by
  simp only [Program.assemble, hlast, hparse]

theorem inert_primitives : ∀ e ∈ Program.primitives, ∀ below, Inert Primitive.host below e := by
  intro e he below
  obtain ⟨p, -, rfl⟩ := List.mem_map.mp he
  trivial

/-- **A program with the shipped prelude stands on the shipped definitions.** -/
theorem yields_standing (store : Source.Store) {room : Nat} (hroom : 3 ≤ room) :
    ∃ program k, Program.assemble store .shipped [] room = .ok program ∧
      ({} : Settings).machine.Yields program [] k (.ok standing) := by
  obtain ⟨prelude, hparse, hdefines⟩ := exists_defines_preludeText hroom
  obtain ⟨script, hwords⟩ := reads_definitions hdefines nodup_names []
  have hprimitives := Reaches.pushAll (v := []) inert_primitives prelude.reverse
  rw [List.append_nil] at hprimitives hwords
  have hprogram := hprimitives.trans hwords
  rw [← List.reverse_append] at hprogram
  have hjoin : Program.join ([] ++ [preludeText.toList]) = preludeText.toList :=
    List.intercalate_singleton
  rw [← hjoin] at hparse
  exact ⟨_, _, assemble_of_parse rfl hparse, (Machine.yields_of_reaches rfl hprogram).1⟩

end Prelude
end Leftward
