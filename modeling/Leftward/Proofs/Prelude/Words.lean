import Leftward.Proofs.Machine.Reading
import Leftward.Proofs.Primitive.Depths

/-!
# The words of the prelude

The prelude's words are programs, and each has a contract like any other piece of code. All that the
contracts need of the stack is that **the shipped definitions are the nearest of their names**
(`Shipped`); beneath what a word takes there may lie anything.

Here are the words that the others are made of: `swap`, which exchanges two values, `if`, which
leaves one of two quotations to be read, and `ifte`, which asks a third one which. **The quotation
that is not chosen is not read**, nor is a value that `swap` moves, other than to be pushed again.
-/

namespace Leftward

variable {ν τ : Type}

namespace Prelude

open Leftward.Expr

/-- The words that the prelude defines, in the order of its text. -/
inductive Word where
  | swap
  | peek
  | rot
  | unrot
  | nip
  | i
  | cond
  | ifte
  | unequal
  | succ
  | pred
  | neg
  | length
  | reverse
  | sum
  deriving DecidableEq, Repr

namespace Word

/-- The word as it is written. -/
def name : Word → String
  | swap => "swap"
  | peek => "over"
  | rot => "rot"
  | unrot => "unrot"
  | nip => "nip"
  | i => "i"
  | cond => "if"
  | ifte => "ifte"
  | unequal => "!="
  | succ => "succ"
  | pred => "pred"
  | neg => "neg"
  | length => "length"
  | reverse => "reverse"
  | sum => "sum"

/-- The body of the word's definition. -/
def body : Word → List (Expr ν τ)
  | swap => [word "bury", num 1]
  | peek => [word "swap", word "dip", quot [word "dup"]]
  | rot => [word "exhume", num 2]
  | unrot => [word "bury", num 2]
  | nip => [word "dip", quot [word "drop"]]
  | i => [word "apply"]
  | cond => [word "apply", word "or", word "swap", word "and", word "swap"]
  | ifte => [word "if", word "exhume", num 2, word "dig", num 2]
  | unequal => [word "not", word "="]
  | succ => [word "+", num 1]
  | pred => [word "-", word "swap", num 1]
  | neg => [word "-", num 0]
  | length =>
    [word "ifte", quot [word "null", word "dup"], quot [num 0, word "drop"],
      quot [word "+", num 1, word "length", word "drop", word "splitAt", num 1]]
  | reverse =>
    [word "ifte", quot [word "null", word "dup"], quot [],
      quot [word "append", word "dip", quot [word "reverse"], word "splitAt", num 1]]
  | sum =>
    [word "ifte", quot [word "null", word "dup"], quot [num 0, word "drop"],
      quot [word "+", word "apply", word "dip", quot [word "sum"], word "splitAt", num 1]]

/-- All words, in the order of the text. -/
def all : List Word :=
  [swap, peek, rot, unrot, nip, i, cond, ifte, unequal, succ, pred, neg, length, reverse, sum]

theorem mem_all (w : Word) : w ∈ all := by
  cases w <;> decide

end Word
end Prelude

open Prelude (Word)

/-- The host supplies the primitives, whatever else it may supply. -/
def Host.Supplies (host : Host ν τ) (embed : Primitive → ν) : Prop :=
  ∀ p tag values, host.act (embed p) tag values = p.act tag values

/-- For every primitive and every word of the prelude, the nearest definition of its name is the
shipped one. -/
structure Shipped (embed : Primitive → ν) (own : Primitive → τ) (values : Stack ν τ) : Prop where
  primitive : ∀ p : Primitive, Stack.lookup p.name values = some [.native (embed p) (own p)]
  prelude : ∀ w : Word, Stack.lookup w.name values = some w.body

variable {embed : Primitive → ν} {own : Primitive → τ}

/-- Whatever is no definition leaves the definitions beneath it the nearest. -/
theorem Shipped.above {values : Stack ν τ} (h : Shipped embed own values) {e : Expr ν τ}
    (he : e.isDefn = false) : Shipped embed own (e :: values) := by
  have hlookup (name : String) : Stack.lookup name (e :: values) = Stack.lookup name values := by
    cases e with
    | defn n body tag => cases he
    | _ => rfl
  exact ⟨fun p => (hlookup _).trans (h.primitive p), fun w => (hlookup _).trans (h.prelude w)⟩

namespace Prelude

open Leftward.Expr

/-! ## Scripts -/

section Scripts

variable (embed : Primitive → ν) (own : Primitive → τ)

/-- The script of a primitive that is called by its word. -/
def called (p : Primitive) : List (Expr ν τ) := [word p.name, native (embed p) (own p)]

/-- The script of `swap`, with the two values in the order in which they are pushed again. -/
def swapScript (x y : Expr ν τ) : List (Expr ν τ) :=
  word "swap" :: num 1 :: (called embed own .bury ++ [x.cover, y.cover])

/-- The script of `if`, up to that of the chosen quotation. -/
def ifScript (c : Expr ν τ) : List (Expr ν τ) :=
  let tested := if c.truthy then quot [] else bool false
  word "if" :: (swapScript embed own c (quot []) ++ (called embed own .and ++ (tested ::
    (swapScript embed own tested (quot []) ++ (called embed own .or ++
      (quot [] :: called embed own .apply))))))

/-- The script of `ifte`, up to that of the chosen quotation. The quotation that is asked has a
script and leaves an answer. -/
def ifteScript (asked : List (Expr ν τ)) (c : Expr ν τ) : List (Expr ν τ) :=
  word "ifte" :: num 2 :: (called embed own .dig ++ (asked ++ (quot [] :: quot [] :: num 2 ::
    (called embed own .exhume ++ (quot [] :: quot [] :: c.cover :: ifScript embed own c)))))

end Scripts

/-! ## Contracts -/

section Contracts

variable {host : Host ν τ} {values : Stack ν τ}

/-- A word of the prelude is replaced by its body. -/
theorem expand (hv : Shipped embed own values) (w : Word) (rest : List (Expr ν τ)) :
    Reaches host [word w.name] (word w.name :: rest) values (w.body.reverse ++ rest) values :=
  .expand (hv.prelude w)

/-- A primitive that fires is called by its word. -/
theorem call (hs : host.Supplies embed) (hv : Shipped embed own values) {p : Primitive}
    {front base : List (Expr ν τ)} (h : ∀ tag, p.act tag values = .applied front base)
    (rest : List (Expr ν τ)) :
    Reaches host (called embed own p) (word p.name :: rest) values
      (front.reverse ++ rest) base := by
  have hword : Reaches host [word p.name] (word p.name :: rest) values
      (native (embed p) (own p) :: rest) values := .expand (hv.primitive p)
  exact hword.trans (.fire fun tag => (hs p tag values).trans (h tag))

/-! ## Moving values and choosing -/

/-- **`swap` exchanges two values.** -/
theorem swap (hs : host.Supplies embed) (hv : Shipped embed own values) {x y : Expr ν τ}
    (hx : x.isDefn = false) (hy : y.isDefn = false) (hpushx : Inert host values x)
    (hpushy : Inert host (x :: values) y) (rest : List (Expr ν τ)) :
    Reaches host (swapScript embed own x y) (word "swap" :: rest) (x :: y :: values)
      rest (y :: x :: values) := by
  have hxy := (hv.above hy).above hx
  have hact (tag : τ) : Primitive.bury.act tag (num 1 :: x :: y :: values) =
      .applied [y, x] values :=
    Primitive.act_bury_append tag x [y] values
  have hbury := call hs (hxy.above rfl) hact rest
  exact (expand hxy .swap rest).trans ((Reaches.pushNum 1).trans (hbury.trans
    ((Reaches.push hpushx).trans (Reaches.push hpushy))))

theorem eq_false_of_not_truthy {e : Expr ν τ} (h : e.truthy = false) : e = bool false := by
  unfold truthy at h
  split at h
  · rfl
  · cases h

/-- `if`, with what is left of the value that decides once `and` has tested it. -/
theorem cond_tested (hs : host.Supplies embed) (hv : Shipped embed own values)
    {c : Expr ν τ} (tested : Expr ν τ) {chosen other picked : List (Expr ν τ)}
    (hc : c.isDefn = false) (hpush : Inert host (quot other :: values) c)
    (htested : tested.isDefn = false) (hagain : ∀ below, Inert host below tested)
    (hand : ∀ tag, Primitive.and.act tag (quot chosen :: c :: quot other :: values) =
      .applied [tested] (quot other :: values))
    (hor : ∀ tag, Primitive.or.act tag (quot other :: tested :: values) =
      .applied [quot picked] values) (rest : List (Expr ν τ)) :
    Reaches host
      (word "if" :: (swapScript embed own c (quot []) ++ (called embed own .and ++ (tested.cover ::
        (swapScript embed own tested (quot []) ++ (called embed own .or ++
          (quot [] :: called embed own .apply)))))))
      (word "if" :: rest) (c :: quot chosen :: quot other :: values)
      (picked.reverse ++ rest) values := by
  have hother : Shipped embed own (quot other :: values) := hv.above rfl
  have hdecides : Shipped embed own (c :: quot other :: values) := hother.above hc
  have hthree : Shipped embed own (c :: quot chosen :: quot other :: values) :=
    Shipped.above (hother.above rfl) hc
  have hleft : Shipped embed own (quot other :: tested :: values) :=
    Shipped.above (hv.above htested) rfl
  have hpicked : Shipped embed own (quot picked :: values) := hv.above rfl
  have happly (tag : τ) : Primitive.apply.act tag (quot picked :: values) =
      .applied picked values := rfl
  have hfirst := swap (y := quot chosen) hs hother hc rfl hpush trivial
  have hsecond := swap (y := quot other) hs hv htested rfl (hagain values) trivial
  exact (expand hthree .cond rest).trans ((hfirst _).trans
    ((call hs (hdecides.above rfl) hand _).trans ((Reaches.push (hagain _)).trans
      ((hsecond _).trans ((call hs hleft hor _).trans
        ((Reaches.pushQuot picked).trans (call hs hpicked happly rest)))))))

/-- **`if` leaves the one quotation to be read if the value counts as true, else the other.** -/
theorem cond (hs : host.Supplies embed) (hv : Shipped embed own values) {c : Expr ν τ}
    (hc : c.isDefn = false) (chosen other : List (Expr ν τ))
    (hpush : Inert host (quot other :: values) c) (rest : List (Expr ν τ)) :
    Reaches host (ifScript embed own c) (word "if" :: rest)
      (c :: quot chosen :: quot other :: values)
      ((if c.truthy then chosen else other).reverse ++ rest) values := by
  cases htruthy : c.truthy with
  | true =>
    have hand (tag : τ) : Primitive.and.act tag (quot chosen :: c :: quot other :: values) =
        .applied [quot chosen] (quot other :: values) := by
      simp [Primitive.act, Action.and, htruthy]
    rw [ifScript, htruthy]
    exact cond_tested hs hv (quot chosen) hc hpush rfl (fun _ => trivial) hand (fun _ => rfl) rest
  | false =>
    -- Nothing but the boolean is false, so what `and` leaves is known here too.
    obtain rfl := eq_false_of_not_truthy htruthy
    exact cond_tested hs hv (bool false) rfl hpush rfl (fun _ => trivial) (fun _ => rfl)
      (fun _ => rfl) rest

/-- `ifte` first has the quotation read that is asked, on the stack beneath all three. The other two
lie behind it in what is pending. -/
theorem ifte_asks (hs : host.Supplies embed) (hv : Shipped embed own values)
    (asked chosen other rest : List (Expr ν τ)) :
    Reaches host (word "ifte" :: num 2 :: called embed own .dig) (word "ifte" :: rest)
      (quot asked :: quot chosen :: quot other :: values)
      (asked.reverse ++
        (quot other :: quot chosen :: num 2 :: word "exhume" :: word "if" :: rest)) values := by
  have hthree : Shipped embed own (quot asked :: quot chosen :: quot other :: values) :=
    Shipped.above (Shipped.above (hv.above rfl) rfl) rfl
  have hact (tag : τ) :
      Primitive.dig.act tag (num 2 :: quot asked :: quot chosen :: quot other :: values) =
        .applied (quot chosen :: quot other :: asked) values :=
    Primitive.act_dig_quot tag asked (n := 2) (by simp)
  have hdig := call hs (hthree.above rfl) hact (num 2 :: word "exhume" :: word "if" :: rest)
  simp only [List.reverse_cons, List.append_assoc, List.cons_append, List.nil_append] at hdig
  exact (expand hthree .ifte rest).trans ((Reaches.pushNum 2).trans hdig)

/-- With an answer on top of a stack, the rest of `ifte` leaves the one quotation or the other to be
read. -/
theorem ifte_chooses (hs : host.Supplies embed) (hv : Shipped embed own values) {c : Expr ν τ}
    (hc : c.isDefn = false) (chosen other : List (Expr ν τ))
    (hpush : Inert host (quot other :: values) c)
    (hpush' : Inert host (quot chosen :: quot other :: values) c) (rest : List (Expr ν τ)) :
    Reaches host
      (quot [] :: quot [] :: num 2 :: (called embed own .exhume ++
        (quot [] :: quot [] :: c.cover :: ifScript embed own c)))
      (quot other :: quot chosen :: num 2 :: word "exhume" :: word "if" :: rest) (c :: values)
      ((if c.truthy then chosen else other).reverse ++ rest) values := by
  have hanswered : Shipped embed own (quot chosen :: quot other :: c :: values) :=
    Shipped.above (Shipped.above (hv.above hc) rfl) rfl
  have hact (tag : τ) :
      Primitive.exhume.act tag (num 2 :: quot chosen :: quot other :: c :: values) =
        .applied [c, quot chosen, quot other] values :=
    Primitive.act_exhume_append tag c [quot chosen, quot other] values
  have hexhume := call hs (hanswered.above rfl) hact (word "if" :: rest)
  exact (Reaches.pushQuot other).trans ((Reaches.pushQuot chosen).trans ((Reaches.pushNum 2).trans
    (hexhume.trans ((Reaches.pushQuot other).trans ((Reaches.pushQuot chosen).trans
      ((Reaches.push hpush').trans (cond hs hv hc chosen other hpush rest)))))))

/-- **`ifte` is `if` with the answer of a quotation.** -/
theorem ifte (hs : host.Supplies embed) (hv : Shipped embed own values)
    {asked script : List (Expr ν τ)} {c : Expr ν τ} {below : Stack ν τ}
    (hasked : ∀ more, Reaches host script (asked.reverse ++ more) values more (c :: below))
    (hbelow : Shipped embed own below) (hc : c.isDefn = false)
    (chosen other : List (Expr ν τ)) (hpush : Inert host (quot other :: below) c)
    (hpush' : Inert host (quot chosen :: quot other :: below) c) (rest : List (Expr ν τ)) :
    Reaches host (ifteScript embed own script c) (word "ifte" :: rest)
      (quot asked :: quot chosen :: quot other :: values)
      ((if c.truthy then chosen else other).reverse ++ rest) below :=
  (ifte_asks hs hv asked chosen other rest).trans ((hasked _).trans
    (ifte_chooses hs hbelow hc chosen other hpush hpush' rest))

end Contracts

end Prelude
end Leftward
