import Leftward.Proofs.Machine.Reading

/-!
# Resting — what a run never takes apart

A run that leaves the lower part of a stack as it was may have taken it apart on the way and put it
together again. `YieldsOver` says that it has not: **every stack that the machine holds lies on the
values below**, those of the steps in between included.

`Turns` is the contract for it: a program turns one stack into another, whatever stands to the left
of it, and does not go below. Programs that do so one after the other do so as one (`Turns.trans`),
and **an expression does what its front does**, one step later (`turns_of_read`): the body of a
word, or what a native leaves to be read.
-/

namespace Leftward
namespace Machine

variable {ν τ : Type} {m : Machine ν τ} {below values base between final : Stack ν τ} {k : Nat}

/-! ## Lying on what is below -/

/-- Whatever comes of reading what is pending on the values, the stack lies on what is below. -/
def RestsOn (m : Machine ν τ) (below : Stack ν τ) (pending : List (Expr ν τ))
    (values : Stack ν τ) : Prop :=
  ∀ steps events n, below <:+ (m.run n ⟨pending, values, steps, events⟩).state.values

theorem restsOn_nil (h : below <:+ values) : m.RestsOn below [] values := by
  intro steps events n
  cases n <;> exact h

theorem restsOn_cons (hm : m.limit = none) {e : Expr ν τ} {front rest : List (Expr ν τ)}
    (hbelow : below <:+ values)
    (hread : ∀ tag, ∃ event, interpret m.host tag values e = .ok ⟨front, base, event⟩)
    (hrest : m.RestsOn below (front.reverse ++ rest) base) :
    m.RestsOn below (e :: rest) values := by
  intro steps events n
  cases n with
  | zero => exact hbelow
  | succ n =>
    obtain ⟨event, hmove⟩ := hread (m.host.stamp (steps + 1))
    rw [run, step_of_unlimited hm, hmove]
    exact hrest _ _ n

/-- Reducing the program on the values ends in the stack after so many steps, and at no time does
the machine's stack not lie on what is below. -/
structure YieldsOver (m : Machine ν τ) (below : Stack ν τ) (program : List (Expr ν τ))
    (values : Stack ν τ) (k : Nat) (final : Stack ν τ) : Prop where
  /-- The run ends. -/
  yields : m.Yields program values k (.ok final)
  /-- What is below is never taken apart. -/
  rests : ∀ n, below <:+ (m.run n (.start program values)).state.values

/-! ## The contract -/

/-- Behind whatever is read before it, the program turns the values into the stack in so many steps,
and does not go below. -/
structure Turns (m : Machine ν τ) (below : Stack ν τ) (program : List (Expr ν τ))
    (values : Stack ν τ) (k : Nat) (final : Stack ν τ) : Prop where
  /-- The program is read to its end. -/
  reaches : ∀ rest, ∃ script, script.length = k ∧
    Reaches m.host script (program.reverse ++ rest) values rest final
  /-- If the rest does not go below, the whole does not. -/
  rests : ∀ rest, m.RestsOn below rest final → m.RestsOn below (program.reverse ++ rest) values

theorem turns_nil : m.Turns below [] values 0 values :=
  ⟨fun _ => ⟨[], rfl, .refl⟩, fun _ hrest => hrest⟩

/-- **First the right part, then the left part.** -/
theorem Turns.trans {p q : List (Expr ν τ)} {a c : Nat} (hq : m.Turns below q values a between)
    (hp : m.Turns below p between c final) : m.Turns below (p ++ q) values (a + c) final := by
  refine ⟨fun rest => ?_, fun rest hrest => ?_⟩
  · obtain ⟨script, hlength, hright⟩ := hq.reaches (p.reverse ++ rest)
    obtain ⟨script', hlength', hleft⟩ := hp.reaches rest
    rw [List.reverse_append, List.append_assoc]
    exact ⟨script ++ script', by rw [List.length_append, hlength, hlength'], hright.trans hleft⟩
  · rw [List.reverse_append, List.append_assoc]
    exact hq.rests _ (hp.rests rest hrest)

/-- **An expression turns the values into what its front turns the base into.** -/
theorem turns_of_read (hm : m.limit = none) {e : Expr ν τ} {front : List (Expr ν τ)}
    (hbelow : below <:+ values)
    (hread : ∀ tag, ∃ event, interpret m.host tag values e = .ok ⟨front, base, event⟩)
    (h : m.Turns below front base k final) : m.Turns below [e] values (k + 1) final := by
  refine ⟨fun rest => ?_, fun rest hrest => restsOn_cons hm hbelow hread (h.rests rest hrest)⟩
  obtain ⟨script, hlength, hfront⟩ := h.reaches rest
  exact ⟨e.cover :: script, by rw [List.length_cons, hlength], .head hread hfront⟩

theorem turns_of_inert (hm : m.limit = none) {e : Expr ν τ} (he : Inert m.host values e)
    (hbelow : below <:+ values) : m.Turns below [e] values 1 (e :: values) :=
  turns_of_read hm hbelow (fun tag => ⟨_, interpret_of_inert he tag⟩) turns_nil

/-- A list of values is pushed as a whole if each is inert on those behind it. -/
theorem turns_of_inert_each (hm : m.limit = none) {es : List (Expr ν τ)}
    (h : ∀ e behind, e :: behind <:+ es → Inert m.host (behind ++ values) e)
    (hbelow : below <:+ values) : m.Turns below es values es.length (es ++ values) := by
  induction es with
  | nil => exact turns_nil
  | cons e es ih =>
    have he : Inert m.host (es ++ values) e := h e es (List.suffix_refl _)
    have hes := ih fun x behind hx => h x behind (hx.trans (List.suffix_cons e es))
    exact hes.trans (turns_of_inert hm he (hbelow.trans (List.suffix_append es values)))

/-- The upper part of a normal stack comes back on the lower one. -/
theorem turns_of_normal (hm : m.limit = none) {es : List (Expr ν τ)}
    (hn : Normal m.host (es ++ values)) (hbelow : below <:+ values) :
    m.Turns below es values es.length (es ++ values) := by
  refine turns_of_inert_each hm (fun e behind he => hn e (behind ++ values) ?_) hbelow
  obtain ⟨front, rfl⟩ := he
  exact ⟨front, by rw [List.append_assoc, List.cons_append]⟩

/-- Literals are pushed, whatever they are pushed on. -/
theorem turns_of_literals (hm : m.limit = none) {es : List (Expr ν τ)}
    (h : ∀ e ∈ es, ∀ values, Inert m.host values e) (hbelow : below <:+ values) :
    m.Turns below es values es.length (es ++ values) :=
  turns_of_inert_each hm (fun e _ he => h e (he.subset List.mem_cons_self) _) hbelow

/-- A program that keeps to the contract alone ends in the stack. -/
theorem Turns.yieldsOver (hm : m.limit = none) {program : List (Expr ν τ)} {steps : Nat}
    (h : m.Turns below program values k final) (hsteps : k = steps) (hbelow : below <:+ final) :
    m.YieldsOver below program values steps final := by
  obtain ⟨script, hlength, hreaches⟩ := h.reaches []
  have hrests := h.rests [] (restsOn_nil hbelow)
  rw [List.append_nil] at hreaches hrests
  rw [← hsteps, ← hlength]
  exact ⟨(yields_of_reaches hm hreaches).1, fun n => hrests 0 [] n⟩

end Machine
end Leftward
