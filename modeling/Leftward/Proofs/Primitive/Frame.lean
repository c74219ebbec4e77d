import Leftward.Proofs.Primitive.Contract

/-!
# What lies beneath — runs on the upper part of a stack

A primitive that fires has found on the stack whatever it was looking for, so **it does the same
with more of a stack beneath** (`act_append`). What has failed for want of values would not: that
is why only successful runs are spoken of. Two things can happen in a successful run that more of a
stack could change. Arithmetic may have waited for a number, and a word may have found no
definition. **Where neither is found further down, the whole run is the same**, step by step, and
what lies beneath is left as it is (`run_onto`, `yields_onto`).
-/

namespace Leftward

variable {ν τ : Type}

theorem take?_append {n : Nat} {values above below : Stack ν τ}
    (h : Stack.take? n values = some (above, below)) (rest : Stack ν τ) :
    Stack.take? n (values ++ rest) = some (above, below ++ rest) := by
  rw [Stack.take?_eq] at h ⊢
  split at h
  · rename_i hn
    cases h
    rw [if_pos (by rw [List.length_append]; omega), List.take_append_of_le_length hn,
      List.drop_append_of_le_length hn]
  · cases h

/-- A definition that is found above is found first. -/
theorem lookup_append (name : String) (values rest : Stack ν τ) :
    Stack.lookup name (values ++ rest) =
      (Stack.lookup name values).or (Stack.lookup name rest) :=
  List.findSome?_append

namespace Action

/-- What fires on the values fires in the same way with more of a stack beneath them. -/
def Frames (action : Stack ν τ → Outcome ν τ) (values : Stack ν τ) : Prop :=
  ∀ front base rest, action values = .applied front base →
    action (values ++ rest) = .applied front (base ++ rest)

/-! ## The operations that reach into the stack -/

theorem frames_bury (values : Stack ν τ) : Frames bury values := by
  intro front base rest
  fun_cases bury values with
  | case2 depth e others hdepth above below htake =>
    intro h
    cases h
    simp only [List.cons_append, bury, if_neg hdepth, take?_append htake]
  | _ =>
    intro h
    cases h

theorem frames_exhume (values : Stack ν τ) : Frames exhume values := by
  intro front base rest
  fun_cases exhume values with
  | case2 depth others hdepth above e below htake =>
    intro h
    cases h
    simp only [List.cons_append, exhume, if_neg hdepth, take?_append htake]
  | _ =>
    intro h
    cases h

theorem frames_dig (values : Stack ν τ) : Frames dig values := by
  intro front base rest
  fun_cases dig values with
  | case2 depth items others hdepth saved below htake =>
    intro h
    cases h
    simp only [List.cons_append, dig, if_neg hdepth, take?_append htake]
  | _ =>
    intro h
    cases h

/-! ## The operations that look at a value more closely -/

theorem frames_splitAt (values : Stack ν τ) : Frames splitAt values := by
  intro front base rest
  fun_cases splitAt values with
  | case2 index items below hin =>
    intro h
    cases h
    simp only [List.cons_append, splitAt, if_neg hin]
  | _ =>
    intro h
    cases h

theorem frames_equal (values : Stack ν τ) : Frames equal values := by
  intro front base rest
  fun_cases equal values with
  | case1 e f below verdict hverdict =>
    intro h
    cases h
    simp only [List.cons_append, equal, hverdict]
  | _ =>
    intro h
    cases h

theorem frames_display (values : Stack ν τ) : Frames display values := by
  intro front base rest
  fun_cases display values with
  | case1 e below text htext =>
    intro h
    cases h
    simp only [List.cons_append, display, htext]
  | _ =>
    intro h
    cases h

theorem frames_division (op : Primitive) (f : Int → Int → Int) (values : Stack ν τ) :
    Frames (division op f) values := by
  intro front base rest
  fun_cases division op f values with
  | case2 x y below hy =>
    intro h
    cases h
    simp only [List.cons_append, division, if_neg hy]
  | _ =>
    intro h
    cases h

theorem frames_arith (f : Int → Int → Int) (values : Stack ν τ) : Frames (arith f) values := by
  intro front base rest
  fun_cases arith f values with
  | case1 x y below =>
    intro h
    cases h
    rfl
  | _ =>
    intro h
    cases h

/-- Two numbers do not come about on top of a stack by what is put beneath, unless that has a
number on top. -/
theorem not_twoNumbers_append {values rest : Stack ν τ} (h : ¬ TwoNumbers values)
    (htop : ∀ n below, rest ≠ .num n :: below) : ¬ TwoNumbers (values ++ rest) := by
  intro hboth
  obtain ⟨x, y, below, heq⟩ := hboth
  cases values with
  | nil => exact htop x _ heq
  | cons a values =>
    obtain ⟨ha, heq⟩ := List.cons.inj heq
    cases values with
    | nil => exact htop y below heq
    | cons b others =>
      obtain ⟨hb, _⟩ := List.cons.inj heq
      exact h ⟨x, y, others, by rw [ha, hb]⟩

end Action

namespace Primitive

/-! ## All of them -/

theorem act_frames (op : Primitive) (tag : τ) (values : Stack ν τ) :
    Action.Frames (op.act tag) values := by
  intro front base rest
  cases op with
  | bury => exact Action.frames_bury values front base rest
  | exhume => exact Action.frames_exhume values front base rest
  | dig => exact Action.frames_dig values front base rest
  | splitAt => exact Action.frames_splitAt values front base rest
  | equal => exact Action.frames_equal values front base rest
  | display => exact Action.frames_display values front base rest
  | add | sub | mul => exact Action.frames_arith _ values front base rest
  | div | mod => exact Action.frames_division _ _ values front base rest
  -- The others match on what is on top and pass on what is beneath.
  | drop | dup | not | or | and | quote | cons | uncons | null | append | kind | dip | apply | croak
  | define =>
    simp only [act, Action.drop, Action.dup, Action.not, Action.or, Action.and, Action.quote,
      Action.cons, Action.uncons, Action.null, Action.append, Action.kind, Action.dip, Action.apply,
      Action.croak, Action.define]
    intro h
    split at h <;> cases h
    all_goals rfl

/-- **A primitive that fires does the same with more of a stack beneath**, which it passes on. -/
theorem act_append {op : Primitive} {tag : τ} {values base : Stack ν τ} {front : List (Expr ν τ)}
    (h : op.act tag values = .applied front base) (rest : Stack ν τ) :
    op.act tag (values ++ rest) = .applied front (base ++ rest) :=
  act_frames op tag values front base rest h

/-- A primitive that waits goes on waiting, unless a number is put beneath. -/
theorem act_deferred_append {op : Primitive} {tag : τ} {values rest : Stack ν τ}
    (h : op.act tag values = .deferred) (htop : ∀ n below, rest ≠ .num n :: below) :
    op.act tag (values ++ rest) = .deferred := by
  obtain ⟨ho, hv⟩ := act_eq_deferred_iff.mp h
  exact act_eq_deferred_iff.mpr ⟨ho, Action.not_twoNumbers_append hv htop⟩

end Primitive

open Primitive (hostWith)

/-! ## One step -/

/-- **What a step does, it does with more of a stack beneath**, if that neither has a number on top
nor defines the word that the step may be about to push. -/
theorem interpret_onto {stamp : Nat → τ} {tag : τ} {values rest : Stack Primitive τ}
    {e : Expr Primitive τ} {move : Move Primitive τ}
    (h : interpret (hostWith stamp) tag values e = .ok move)
    (htop : ∀ n below, rest ≠ .num n :: below)
    (hword : ∀ name, e = .word name → Stack.lookup name values = none →
      Stack.lookup name rest = none) :
    interpret (hostWith stamp) tag (values ++ rest) e =
      .ok { move with values := move.values ++ rest } := by
  cases e with
  | word name =>
    cases hb : Stack.lookup name values with
    | some body =>
      rw [interpret_resolve hb] at h
      cases h
      exact interpret_resolve (by rw [lookup_append, hb, Option.some_or]) tag
    | none =>
      rw [interpret_of_inert (inert_word_iff.mpr hb)] at h
      cases h
      have hnone : Stack.lookup name (values ++ rest) = none := by
        rw [lookup_append, hb, Option.none_or, hword name rfl hb]
      exact interpret_of_inert (inert_word_iff.mpr hnone) tag
  | native op own =>
    cases ha : (hostWith stamp).act op tag values with
    | applied front base =>
      have hrest : (hostWith stamp).act op tag (values ++ rest) = .applied front (base ++ rest) :=
        Primitive.act_append ha rest
      rw [interpret_fire ha] at h
      cases h
      exact interpret_fire hrest own
    | deferred =>
      have hrest : (hostWith stamp).act op tag (values ++ rest) = .deferred :=
        Primitive.act_deferred_append ha htop
      rw [interpret_decline ha] at h
      cases h
      exact interpret_decline hrest own
    | failed failure =>
      rw [interpret_fail ha] at h
      cases h
    | malformed shown => exact absurd ha Primitive.act_ne_malformed
  | _ =>
    cases h
    rfl

/-! ## Whole runs -/

/-- The state with more of a stack beneath its values. -/
def State.onto (s : State ν τ) (rest : Stack ν τ) : State ν τ :=
  { s with values := s.values ++ rest }

/-- The run from the state pushes the word as data: it comes to read the word where nothing on the
stack defines it. -/
def Machine.Leaves (m : Machine ν τ) (s : State ν τ) (name : String) : Prop :=
  ∃ n t others, m.run n s = .running t ∧ t.pending = .word name :: others ∧
    Stack.lookup name t.values = none

section Runs

variable {stamp : Nat → τ} {limit : Option Int} {watched : Bool}

theorem step_onto {s t : State Primitive τ} {rest : Stack Primitive τ}
    (h : (⟨hostWith stamp, limit, watched⟩ : Machine Primitive τ).step s = .running t)
    (htop : ∀ n below, rest ≠ .num n :: below)
    (hword : ∀ name others, s.pending = .word name :: others →
      Stack.lookup name s.values = none → Stack.lookup name rest = none) :
    (⟨hostWith stamp, limit, watched⟩ : Machine Primitive τ).step (s.onto rest) =
      .running (t.onto rest) := by
  obtain ⟨e, others, move, hpending, hwithin, hmove, rfl⟩ := Machine.step_eq_running h
  have honto := interpret_onto hmove htop fun name he =>
    hword name others (by rw [hpending, he])
  simp only [Machine.step, State.onto, hpending, hwithin, honto]

/-- **A run is the same with more of a stack beneath**, as long as it goes on. -/
theorem run_onto {n : Nat} {s t : State Primitive τ} {rest : Stack Primitive τ}
    (h : (⟨hostWith stamp, limit, watched⟩ : Machine Primitive τ).run n s = .running t)
    (htop : ∀ n below, rest ≠ .num n :: below)
    (hwords : ∀ name, (⟨hostWith stamp, limit, watched⟩ : Machine Primitive τ).Leaves s name →
      Stack.lookup name rest = none) :
    (⟨hostWith stamp, limit, watched⟩ : Machine Primitive τ).run n (s.onto rest) =
      .running (t.onto rest) := by
  induction n generalizing s with
  | zero =>
    cases h
    rfl
  | succ n ih =>
    rw [Machine.run] at h
    cases hstep : (⟨hostWith stamp, limit, watched⟩ : Machine Primitive τ).step s with
    | running u =>
      rw [hstep] at h
      rw [Machine.run, step_onto hstep htop fun name others hp hl =>
        hwords name ⟨0, s, others, rfl, hp, hl⟩]
      refine ih h fun name hleaves => hwords name ?_
      obtain ⟨j, v, others, hrun, hv⟩ := hleaves
      exact ⟨j + 1, v, others, by rw [Machine.run, hstep]; exact hrun, hv⟩
    | finished u =>
      rw [hstep] at h
      cases h
    | failed u failure =>
      rw [hstep] at h
      cases h

end Runs

/-- **A successful run does not depend on what lies beneath the part of the stack that it uses.** If
a program reduces a stack to another, and what is put beneath has no number on top for which
arithmetic could have waited and defines no word that the run pushes as data, then the program takes
the same steps to the same stack with the same thing beneath, which it never touches on its way. -/
theorem yields_onto (stamp : Nat → τ) (watched : Bool) (p : List (Expr Primitive τ))
    (values rest : Stack Primitive τ) {k : Nat} {final : Stack Primitive τ}
    (h : (⟨hostWith stamp, none, watched⟩ : Machine Primitive τ).Yields p values k (.ok final))
    (htop : ∀ n below, rest ≠ .num n :: below)
    (hwords : ∀ name,
      (⟨hostWith stamp, none, watched⟩ : Machine Primitive τ).Leaves (.start p values) name →
        ∀ body tag, .defn name body tag ∉ rest) :
    (⟨hostWith stamp, none, watched⟩ : Machine Primitive τ).Yields p (values ++ rest) k
        (.ok (final ++ rest)) ∧
      ∀ n t, (⟨hostWith stamp, none, watched⟩ : Machine Primitive τ).run n (.start p values) =
          .running t →
        (⟨hostWith stamp, none, watched⟩ : Machine Primitive τ).run n
            (.start p (values ++ rest)) = .running (t.onto rest) := by
  have hruns : ∀ n t,
      (⟨hostWith stamp, none, watched⟩ : Machine Primitive τ).run n (.start p values) =
          .running t →
        (⟨hostWith stamp, none, watched⟩ : Machine Primitive τ).run n
            (.start p (values ++ rest)) = .running (t.onto rest) := fun n t hrun =>
    run_onto hrun htop fun name hleaves => lookup_eq_none.mpr (hwords name hleaves)
  obtain ⟨t, hrun, hread, rfl⟩ := Machine.yields_ok_iff.mp h
  exact ⟨Machine.yields_ok_iff.mpr ⟨t.onto rest, hruns k t hrun, hread, rfl⟩, hruns⟩

/-- A word that is moved and an addition that waits, above a character and a definition of another
word. -/
theorem yields_onto_waiting :
    (∀ n below, ([.chr 'c', .defn "y" [] ()] : Stack Primitive Unit) ≠ .num n :: below) ∧
      (⟨Primitive.host, none, false⟩ : Machine Primitive Unit).Yields
        [.native .add (), .native .bury (), .num 1, .word "x"]
        [.num 2, .chr 'c', .defn "y" [] ()] 6
        (.ok [.native .add (), .num 2, .word "x", .chr 'c', .defn "y" [] ()]) := by
  let m : Machine Primitive Unit := ⟨Primitive.host, none, false⟩
  let p : List (Expr Primitive Unit) := [.native .add (), .native .bury (), .num 1, .word "x"]
  have hwords : ∀ name, m.Leaves (.start p [.num 2]) name → name = "x" := by
    rintro name ⟨n, t, others, hrun, hpending, _⟩
    match n, hrun with
    | 0, hrun | 1, hrun | 2, hrun | 3, hrun | 4, hrun | 5, hrun | 6, hrun =>
      cases hrun
      cases hpending <;> rfl
    | n + 7, hrun => cases hrun
  refine ⟨by simp, ?_⟩
  refine (yields_onto (fun _ => ()) false p [.num 2] [.chr 'c', .defn "y" [] ()] ⟨7, rfl, rfl⟩
    (by simp) ?_).1
  intro name hleaves
  rw [hwords name hleaves]
  simp

end Leftward
