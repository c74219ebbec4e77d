import Leftward.Proofs.Machine.Normal
import Leftward.Proofs.Machine.Watching

/-!
# Reading — contracts for pieces of code

What a word does is best said of the word alone, whatever stands to the left of it. `Reaches` is
such a contract: reading leads from what is pending on one stack to what is pending on another.
Contracts are put together one behind the other (`Reaches.trans`), and the shortest are those of the
single steps: something is pushed, a word is replaced by its body, a native fires.

A contract also keeps the **script**, the list of all expressions that are read on the way. The
items of a quotation are left out of it (`Expr.cover`), so that a script can be the same for
different quotations; then no item has been read, or it would be told apart. **What the contract
says the machine does** (`Machine.run_of_reaches`), the script included.
-/

namespace Leftward

variable {ν τ : Type}

/-- The expression with nothing in it, if it is a quotation. -/
def Expr.cover : Expr ν τ → Expr ν τ
  | .quot _ => .quot []
  | e => e

/-- Reading leads from what is pending on a stack to what is then pending on another, by a script.
It does so whatever tags are handed out. -/
inductive Reaches (host : Host ν τ) :
    List (Expr ν τ) → List (Expr ν τ) → Stack ν τ → List (Expr ν τ) → Stack ν τ → Prop where
  -- Nothing is read.
  | refl {pending : List (Expr ν τ)} {values : Stack ν τ} :
      Reaches host [] pending values pending values
  -- One expression is read, and what it leaves in front is read next.
  | head {script rest front pending : List (Expr ν τ)} {e : Expr ν τ}
      {values base final : Stack ν τ} :
      (∀ tag, ∃ event, interpret host tag values e = .ok ⟨front, base, event⟩) →
      Reaches host script (front.reverse ++ rest) base pending final →
      Reaches host (e.cover :: script) (e :: rest) values pending final

variable {host : Host ν τ}

namespace Reaches

variable {s t p q r : List (Expr ν τ)} {u v w : Stack ν τ}

/-- **One contract and then another.** -/
theorem trans (h : Reaches host s p u q v) (k : Reaches host t q v r w) :
    Reaches host (s ++ t) p u r w := by
  induction h with
  | refl => exact k
  | head hread _ ih => exact .head hread (ih k)

/-- What is pending behind is left alone. -/
theorem before (h : Reaches host s p u q v) (rest : List (Expr ν τ)) :
    Reaches host s (p ++ rest) u (q ++ rest) v := by
  induction h with
  | refl => exact .refl
  | head hread _ ih =>
    rw [List.append_assoc] at ih
    exact .head hread ih

/-- A single step. -/
theorem single {front rest : List (Expr ν τ)} {e : Expr ν τ} {base : Stack ν τ}
    (h : ∀ tag, ∃ event, interpret host tag v e = .ok ⟨front, base, event⟩) :
    Reaches host [e.cover] (e :: rest) v (front.reverse ++ rest) base :=
  .head h .refl

/-- What is inert is pushed. -/
theorem push {rest : List (Expr ν τ)} {e : Expr ν τ} (h : Inert host v e) :
    Reaches host [e.cover] (e :: rest) v rest (e :: v) :=
  single fun tag => ⟨_, interpret_of_inert h tag⟩

/-- Quotations are pushed, whatever is in them. -/
theorem pushQuot {rest : List (Expr ν τ)} (items : List (Expr ν τ)) :
    Reaches host [.quot []] (.quot items :: rest) v rest (.quot items :: v) :=
  push (show Inert host v (.quot items) from trivial)

/-- Numbers are pushed. -/
theorem pushNum {rest : List (Expr ν τ)} (n : Int) :
    Reaches host [.num n] (.num n :: rest) v rest (.num n :: v) :=
  push (show Inert host v (.num n) from trivial)

/-- Truth values are pushed. -/
theorem pushBool {rest : List (Expr ν τ)} (b : Bool) :
    Reaches host [.bool b] (.bool b :: rest) v rest (.bool b :: v) :=
  push (show Inert host v (.bool b) from trivial)

/-- A list of values that are inert on any stack is pushed as a whole. -/
theorem pushAll {es : List (Expr ν τ)} (h : ∀ e ∈ es, ∀ below, Inert host below e)
    (rest : List (Expr ν τ)) :
    Reaches host (es.map Expr.cover).reverse (es.reverse ++ rest) v rest (es ++ v) := by
  induction es generalizing rest with
  | nil => exact .refl
  | cons e es ih =>
    have htail := ih (fun x hx => h x (List.mem_cons_of_mem e hx)) (e :: rest)
    rw [List.map_cons, List.reverse_cons, List.reverse_cons, List.append_assoc]
    exact htail.trans (push (h e List.mem_cons_self _))

/-- A comment vanishes. -/
theorem erase {text : String} {rest : List (Expr ν τ)} :
    Reaches host [.comment text] (.comment text :: rest) v rest v :=
  single fun tag => ⟨_, interpret_erase tag⟩

/-- A word is replaced by its body. -/
theorem expand {name : String} {body rest : List (Expr ν τ)} (h : Stack.lookup name v = some body) :
    Reaches host [.word name] (.word name :: rest) v (body.reverse ++ rest) v :=
  single fun tag => ⟨_, interpret_resolve h tag⟩

/-- A native fires. -/
theorem fire {op : ν} {own : τ} {front rest : List (Expr ν τ)} {base : Stack ν τ}
    (h : ∀ tag, host.act op tag v = .applied front base) :
    Reaches host [.native op own] (.native op own :: rest) v (front.reverse ++ rest) base :=
  single fun tag => ⟨_, interpret_fire (h tag) own⟩

/-- A native that is called on literals fires. -/
theorem fireOn {op : ν} {own : τ} {operands front : List (Expr ν τ)} {rest base : Stack ν τ}
    (hoperands : ∀ e ∈ operands, ∀ below, Inert host below e)
    (h : ∀ tag, host.act op tag (operands ++ rest) = .applied front base) :
    Reaches host ((operands.map Expr.cover).reverse ++ [.native op own])
      (.native op own :: operands).reverse rest front.reverse base := by
  have hpushed := pushAll (v := rest) hoperands [.native op own]
  have hfired : Reaches host [.native op own] [.native op own] (operands ++ rest)
      (front.reverse ++ []) base := fire h
  rw [List.append_nil] at hfired
  rw [List.reverse_cons]
  exact hpushed.trans hfired

/-- A run that begins where a contract does goes on from where the contract leads. -/
theorem runs {k : Nat} {result : Result ν τ} (h : Reaches host s p u q v)
    (hrun : Runs host k p u result) : ∃ j, k = s.length + j ∧ Runs host j q v result := by
  induction h generalizing k with
  | refl => exact ⟨k, (Nat.zero_add k).symm, hrun⟩
  | head hread _ ih =>
    cases hrun with
    | @step k _ _ _ tag _ _ hmove hrest =>
      obtain ⟨event, hthis⟩ := hread tag
      rw [hthis] at hmove
      cases hmove
      obtain ⟨j, rfl, hlater⟩ := ih hrest
      exact ⟨j, by rw [List.length_cons]; omega, hlater⟩
    | @fail _ _ _ tag _ hfails =>
      obtain ⟨event, hthis⟩ := hread tag
      rw [hthis] at hfails
      cases hfails

end Reaches

/-! ## The machine keeps to the script -/

namespace Machine

/-- The expressions that a run of so many steps has read, in order. -/
def reading (m : Machine ν τ) (n : Nat) (s : State ν τ) : List (Expr ν τ) :=
  (m.passed n s).filterMap (·.pending.head?)

variable {m : Machine ν τ}

theorem reading_succ {s t : State ν τ} {e : Expr ν τ} {rest : List (Expr ν τ)} (n : Nat)
    (hpending : s.pending = e :: rest) (h : m.step s = .running t) :
    m.reading (n + 1) s = e :: m.reading n t := by
  simp only [reading, passed, h, List.filterMap_cons, hpending, List.head?_cons]

/-- **What a contract says, a machine without a limit does**: it gets there in as many steps as the
script is long, and what it reads is the script. -/
theorem run_of_reaches (hm : m.limit = none) {script p q : List (Expr ν τ)} {u v : Stack ν τ}
    (h : Reaches m.host script p u q v) (steps : Nat) (events : List Event) :
    (∃ events', m.run script.length ⟨p, u, steps, events⟩ =
      .running ⟨q, v, steps + script.length, events'⟩) ∧
    (m.reading script.length ⟨p, u, steps, events⟩).map Expr.cover = script := by
  induction h generalizing steps events with
  | refl => exact ⟨⟨events, rfl⟩, rfl⟩
  | @head script rest front q e u base v hread _ ih =>
    obtain ⟨event, hmove⟩ := hread (m.host.stamp (steps + 1))
    have hstep : m.step ⟨e :: rest, u, steps, events⟩ =
        .running ⟨front.reverse ++ rest, base, steps + 1, m.note event events⟩ := by
      rw [step_of_unlimited hm, hmove]
    obtain ⟨⟨events', hrun⟩, hreading⟩ := ih (steps + 1) (m.note event events)
    have hcount : steps + 1 + script.length = steps + (e.cover :: script).length := by
      rw [List.length_cons]
      omega
    refine ⟨⟨events', ?_⟩, ?_⟩
    · rw [List.length_cons, run, hstep, ← List.length_cons (a := e.cover), ← hcount]
      exact hrun
    · rw [List.length_cons, reading_succ _ rfl hstep, List.map_cons, hreading]

/-- A program that a contract reads to its end yields the stack that it leaves. -/
theorem yields_of_reaches (hm : m.limit = none) {script program : List (Expr ν τ)}
    {base final : Stack ν τ} (h : Reaches m.host script program.reverse base [] final) :
    m.Yields program base script.length (.ok final) ∧
      (m.reading script.length (.start program base)).map Expr.cover = script := by
  obtain ⟨⟨events, hrun⟩, hreading⟩ := run_of_reaches hm h 0 []
  exact ⟨yields_ok_iff.mpr ⟨_, hrun, rfl, rfl⟩, hreading⟩

end Machine
end Leftward
