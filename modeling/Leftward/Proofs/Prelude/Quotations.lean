import Leftward.Proofs.Prelude.Foundation

/-!
# `length` and `reverse`

Both words ask whether the quotation on top is empty and, if it is not, split its first item off,
**as a quotation of its own**, and go on with the rest. An item is never on the stack by itself and
never in front of what is pending. So whatever the items are, words that are defined, natives,
comments, they are counted and turned around and not read: **the script depends on how many there
are and on nothing else** (`length_reads`, `reverse_reads`).
-/

namespace Leftward
namespace Prelude

open Leftward.Expr

variable {ν τ : Type}

/-! ## Scripts -/

section Scripts

variable (embed : Primitive → ν) (own : Primitive → τ)

/-- The script of a word that goes through a quotation, up to that of its one body or the other. -/
def walkScript (w : Word) (empty : Bool) : List (Expr ν τ) :=
  word w.name :: quot [] :: quot [] :: quot [] ::
    ifteScript embed own
      (called embed own .dup ++ (quot [] :: quot [] :: (called embed own .null ++ [bool empty])))
      (bool empty)

/-- The script of splitting the first item off. -/
def headScript : List (Expr ν τ) := num 1 :: (called embed own .splitAt ++ [quot [], quot []])

/-- The script of `length` on a quotation of so many items. -/
def lengthScript : Nat → List (Expr ν τ)
  | 0 => walkScript embed own .length true ++ (called embed own .drop ++ [num 0])
  | n + 1 =>
    walkScript embed own .length false ++ (headScript embed own ++ (called embed own .drop ++
      (lengthScript n ++ (num 1 :: (called embed own .add ++ [num (n + 1)])))))

/-- The script of `reverse` on a quotation of so many items. -/
def reverseScript : Nat → List (Expr ν τ)
  | 0 => walkScript embed own .reverse true
  | n + 1 =>
    walkScript embed own .reverse false ++ (headScript embed own ++ (quot [] ::
      (called embed own .dip ++ (reverseScript n ++ (quot [] ::
        (called embed own .append ++ [quot []]))))))

end Scripts

/-! ## Contracts -/

variable {embed : Primitive → ν} {own : Primitive → τ} {host : Host ν τ} {values : Stack ν τ}

/-- A word that goes through a quotation chooses between its two bodies by whether it is empty, and
leaves the quotation where it is. -/
theorem walk (hs : host.Supplies embed) (hv : Shipped embed own values) {w : Word}
    {done more : List (Expr ν τ)}
    (hw : w.body = [word "ifte", quot [word "null", word "dup"], quot done, quot more])
    (items rest : List (Expr ν τ)) :
    Reaches host (walkScript embed own w items.isEmpty) (word w.name :: rest) (quot items :: values)
      ((if items.isEmpty then done else more).reverse ++ rest) (quot items :: values) := by
  have hitems : Shipped embed own (quot items :: values) := hv.above rfl
  have hdup (tag : τ) : Primitive.dup.act tag (quot items :: values) =
      .applied [quot items, quot items] values := rfl
  have hnull (tag : τ) : Primitive.null.act tag (quot items :: quot items :: values) =
      .applied [bool items.isEmpty] (quot items :: values) := rfl
  have hasked (behind : List (Expr ν τ)) : Reaches host _
      ([word "null", word "dup"].reverse ++ behind) (quot items :: values)
      behind (bool items.isEmpty :: quot items :: values) :=
    (call hs hitems hdup _).trans ((Reaches.pushQuot items).trans ((Reaches.pushQuot items).trans
      ((call hs (hitems.above rfl) hnull _).trans (Reaches.pushBool _))))
  have htruthy : (bool items.isEmpty : Expr ν τ).truthy = items.isEmpty := by
    cases items.isEmpty <;> rfl
  have hchosen := ifte hs hitems hasked hitems rfl done more trivial trivial rest
  rw [htruthy] at hchosen
  have hbody : Reaches host [word w.name] (word w.name :: rest) (quot items :: values)
      (w.body.reverse ++ rest) (quot items :: values) := expand hitems w rest
  rw [hw] at hbody
  exact hbody.trans ((Reaches.pushQuot more).trans ((Reaches.pushQuot done).trans
    ((Reaches.pushQuot _).trans hchosen)))

/-- The first item is split off as a quotation of its own. -/
theorem head (hs : host.Supplies embed) (hv : Shipped embed own values) (x : Expr ν τ)
    (xs rest : List (Expr ν τ)) :
    Reaches host (headScript embed own) (num 1 :: word "splitAt" :: rest)
      (quot (x :: xs) :: values) rest (quot [x] :: quot xs :: values) := by
  have hitems : Shipped embed own (quot (x :: xs) :: values) := hv.above rfl
  have hinside : ¬ ((1 : Int) < 0 ∨ ((x :: xs).length : Int) < 1) := by
    simp only [List.length_cons]
    omega
  have hsplit (tag : τ) : Primitive.splitAt.act tag (num 1 :: quot (x :: xs) :: values) =
      .applied [quot [x], quot xs] values := by
    simp only [Primitive.act, Action.splitAt, if_neg hinside]
    rfl
  exact (Reaches.pushNum 1).trans ((call hs (hitems.above rfl) hsplit _).trans
    ((Reaches.pushQuot xs).trans (Reaches.pushQuot [x])))

/-- **`length` leaves the number of items.** -/
theorem length_reads (hs : host.Supplies embed) (hv : Shipped embed own values)
    (xs rest : List (Expr ν τ)) :
    Reaches host (lengthScript embed own xs.length) (word "length" :: rest) (quot xs :: values)
      rest (num xs.length :: values) := by
  -- The word is called again on the rest of the items, over the same stack.
  induction xs generalizing rest with
  | nil =>
    have hdrop (tag : τ) : Primitive.drop.act tag (quot [] :: values) = .applied [] values := rfl
    exact (walk (w := .length) hs hv rfl [] rest).trans
      ((call hs (hv.above rfl) hdrop _).trans (Reaches.pushNum 0))
  | cons x xs ih =>
    have hdrop (tag : τ) : Primitive.drop.act tag (quot [x] :: quot xs :: values) =
        .applied [] (quot xs :: values) := rfl
    have hone : (1 : Int) + xs.length = xs.length + 1 := Int.add_comm _ _
    have hadd (tag : τ) : Primitive.add.act tag (num 1 :: num xs.length :: values) =
        .applied [num (xs.length + 1)] values := by
      rw [← hone]
      rfl
    have hrest : Shipped embed own (quot xs :: values) := hv.above rfl
    have hcounted : Shipped embed own (num xs.length :: values) := hv.above rfl
    exact (walk (w := .length) hs hv rfl (x :: xs) rest).trans ((head hs hv x xs _).trans
      ((call hs (hrest.above rfl) hdrop _).trans ((ih _).trans ((Reaches.pushNum 1).trans
        ((call hs (hcounted.above rfl) hadd rest).trans (Reaches.pushNum _))))))

/-- **`reverse` leaves the items in reverse.** -/
theorem reverse_reads (hs : host.Supplies embed) (hv : Shipped embed own values)
    (xs rest : List (Expr ν τ)) :
    Reaches host (reverseScript embed own xs.length) (word "reverse" :: rest) (quot xs :: values)
      rest (quot xs.reverse :: values) := by
  induction xs generalizing rest with
  | nil => exact walk (w := .reverse) hs hv rfl [] rest
  | cons x xs ih =>
    have hdip (tag : τ) :
        Primitive.dip.act tag (quot [word "reverse"] :: quot [x] :: quot xs :: values) =
          .applied [quot [x], word "reverse"] (quot xs :: values) := rfl
    have happend (tag : τ) :
        Primitive.append.act tag (quot [x] :: quot xs.reverse :: values) =
          .applied [quot (x :: xs).reverse] values := by
      rw [List.reverse_cons]
      rfl
    have hsplit : Shipped embed own (quot [x] :: quot xs :: values) :=
      Shipped.above (hv.above rfl) rfl
    have hturned : Shipped embed own (quot [x] :: quot xs.reverse :: values) :=
      Shipped.above (hv.above rfl) rfl
    exact (walk (w := .reverse) hs hv rfl (x :: xs) rest).trans ((head hs hv x xs _).trans
      ((Reaches.pushQuot [word "reverse"]).trans ((call hs (hsplit.above rfl) hdip _).trans
        ((ih _).trans ((Reaches.pushQuot [x]).trans ((call hs hturned happend rest).trans
          (Reaches.pushQuot _)))))))

/-- **`length` counts the items of any quotation and `reverse` turns them around**, on top of
exactly the stack that was there, wherever the shipped definitions are the nearest. Whatever the
items are, what is read on the way is the script for their number, so no item is read itself. Hence
`reverse` undoes itself, and it does not change the length. -/
theorem counts_and_reverses {m : Machine ν τ} (hm : m.limit = none)
    (hs : m.host.Supplies embed) {base : Stack ν τ} (hb : Shipped embed own base)
    (xs : List (Expr ν τ)) :
    let counting := quot [] :: lengthScript embed own xs.length
    let turning := quot [] :: reverseScript embed own xs.length
    (m.Yields [word "length", quot xs] base counting.length (.ok (num xs.length :: base)) ∧
      (m.reading counting.length (.start [word "length", quot xs] base)).map cover = counting) ∧
    (m.Yields [word "reverse", quot xs] base turning.length (.ok (quot xs.reverse :: base)) ∧
      (m.reading turning.length (.start [word "reverse", quot xs] base)).map cover = turning) ∧
    (∃ k, m.Yields [word "reverse", word "reverse", quot xs] base k (.ok (quot xs :: base))) ∧
    ∃ k, m.Yields [word "length", word "reverse", quot xs] base k
      (.ok (num xs.length :: base)) := by
  intro counting turning
  have hcount (rest : List (Expr ν τ)) := length_reads hs hb xs.reverse rest
  have hback (rest : List (Expr ν τ)) := reverse_reads hs hb xs.reverse rest
  rw [List.length_reverse] at hcount
  rw [List.reverse_reverse] at hback
  have hturn (rest : List (Expr ν τ)) := (Reaches.pushQuot xs).trans (reverse_reads hs hb xs rest)
  refine ⟨?_, ?_, ?_, ?_⟩
  · exact Machine.yields_of_reaches hm ((Reaches.pushQuot xs).trans (length_reads hs hb xs []))
  · exact Machine.yields_of_reaches hm (hturn [])
  · exact ⟨_, (Machine.yields_of_reaches hm ((hturn [word "reverse"]).trans (hback []))).1⟩
  · exact ⟨_, (Machine.yields_of_reaches hm ((hturn [word "length"]).trans (hcount []))).1⟩

/-- On what the shipped prelude leaves, a word, a native that would give up and a comment are turned
around. -/
theorem counts_and_reverses_croak :
    ∃ program made base k,
      Program.assemble (fun _ => .error .missing) .shipped [] 3 = .ok program ∧
      ({} : Settings).machine.Yields program [] made (.ok base) ∧
      Shipped id (fun _ => ()) base ∧
      ({} : Settings).machine.Yields
        [word "reverse", quot [word "drop", native .croak (), comment "c"]] base k
        (.ok (quot [comment "c", native .croak (), word "drop"] :: base)) := by
  obtain ⟨program, made, hprogram, hbase⟩ :=
    yields_standing (fun _ => .error .missing) (Nat.le_refl 3)
  have hsupplies : ({} : Settings).machine.host.Supplies (id : Primitive → Primitive) :=
    fun _ _ _ => rfl
  have hturned := (counts_and_reverses (m := ({} : Settings).machine) rfl hsupplies
    shipped_standing [word "drop", native .croak (), comment "c"]).2.1.1
  exact ⟨program, made, standing, _, hprogram, hbase, shipped_standing, hturned⟩

end Prelude
end Leftward
