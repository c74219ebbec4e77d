import Leftward.Proofs.Machine.Runs

/-!
# Normal stacks — what has been read stays read

A stack is **normal** if every value on it would be pushed again if it were read where it lies:
no comment, no word with a definition beneath it, no native that would not decline. This is the
invariant that lets the machine leave the base of an application alone. It is a statement about
each value *and everything under it*, and the reason why it survives natives that move words and
definitions around is that a native hands back a suffix of its stack and nothing else; whatever it
moves goes into the front and is read again.

**Every stack that the machine holds is normal** if the base was (`normal_of_run`), and **a normal
stack read again comes back step by step** (`run_of_normal`).
-/

namespace Leftward

variable {ν τ : Type}

/-- What the machine relies on: whether a native declines is for the stack to say and not for the
tag, and a native that fires leaves a suffix of its stack. -/
structure Host.Lawful (host : Host ν τ) : Prop where
  declines : ∀ {op s values}, host.act op s values = .deferred →
    ∀ t, host.act op t values = .deferred
  suffix : ∀ {op tag values front base}, host.act op tag values = .applied front base →
    base <:+ values

/-- An expression that is pushed if it is read on top of the values. -/
def Inert (host : Host ν τ) (values : Stack ν τ) : Expr ν τ → Prop
  | .comment _ => False
  | .word name => ∀ body tag, .defn name body tag ∉ values
  | .native op _ => ∀ tag, host.act op tag values = .deferred
  | _ => True

/-- Every value of the stack is inert on what lies beneath it. -/
def Normal (host : Host ν τ) (values : Stack ν τ) : Prop :=
  ∀ e rest, e :: rest <:+ values → Inert host rest e

variable {host : Host ν τ}

theorem normal_nil : Normal host [] := by
  intro e rest h
  exact absurd (List.suffix_nil.mp h) (by simp)

theorem normal_cons {e : Expr ν τ} {rest : Stack ν τ} :
    Normal host (e :: rest) ↔ Inert host rest e ∧ Normal host rest := by
  constructor
  · intro h
    refine ⟨h e rest List.suffix_rfl, fun x below hx => ?_⟩
    exact h x below (hx.trans (List.suffix_cons e rest))
  · intro h x below hx
    obtain ⟨he, hrest⟩ := h
    rcases List.suffix_cons_iff.mp hx with heq | hx
    · obtain ⟨rfl, rfl⟩ := List.cons.inj heq
      exact he
    · exact hrest x below hx

theorem Normal.of_suffix {values base : Stack ν τ} (h : Normal host values)
    (hs : base <:+ values) : Normal host base :=
  fun e rest he => h e rest (he.trans hs)

/-- Only words, natives and comments are not pushed wherever they are read. -/
theorem inert_of_data {host : Host ν τ} {e : Expr ν τ} (hword : e.kind ≠ .word)
    (hfunction : e.kind ≠ .function) (hcomment : e.kind ≠ .comment) (below : Stack ν τ) :
    Inert host below e := by
  cases e with
  | word => exact absurd rfl hword
  | native => exact absurd rfl hfunction
  | comment => exact absurd rfl hcomment
  | _ => trivial

/-- No comment lies on a normal stack. -/
theorem Normal.not_comment {host : Host ν τ} {values : Stack ν τ} (h : Normal host values)
    {e : Expr ν τ} (he : e ∈ values) : e.kind ≠ .comment := by
  obtain ⟨above, below, rfl⟩ := List.append_of_mem he
  have hinert : Inert host below e := h e below (List.suffix_append above _)
  intro hkind
  cases e with
  | comment => exact hinert
  | _ => cases hkind

/-! ## Moving values

A word is in the way of a definition beneath it and a native in the way of whatever it takes. A
value that is neither a definition nor a native is in nobody's way. -/

/-- The expression is neither a definition nor a native. -/
def Expr.Movable (e : Expr ν τ) : Prop := e.kind ≠ .definition ∧ e.kind ≠ .function

instance (e : Expr ν τ) : Decidable e.Movable := inferInstanceAs (Decidable (_ ∧ _))

/-- To all but natives only the definitions matter. -/
theorem Inert.of_definitions {values below : Stack ν τ} {e : Expr ν τ} (h : Inert host values e)
    (hfunction : e.kind ≠ .function)
    (hbelow : ∀ d ∈ below, d.kind = .definition → d ∈ values) : Inert host below e := by
  cases e with
  | comment text => exact h
  | word name => exact fun body tag hmem => h body tag (hbelow _ hmem rfl)
  | native op own => exact absurd rfl hfunction
  | _ => trivial

/-- **Movable values may be put in any order, left out and doubled**, and the stack stays normal. -/
theorem Normal.moved {above moved below : Stack ν τ} (hn : Normal host (above ++ below))
    (hmovable : ∀ e ∈ above, e.Movable) (hmoved : moved ⊆ above) :
    Normal host (moved ++ below) := by
  induction moved with
  | nil => exact hn.of_suffix (List.suffix_append above below)
  | cons e moved ih =>
    obtain ⟨he, hrest⟩ := List.cons_subset.mp hmoved
    obtain ⟨before, after, hcut⟩ := List.append_of_mem he
    have hthere : Inert host (after ++ below) e :=
      hn e (after ++ below) ⟨before, by rw [hcut, List.append_assoc, List.cons_append]⟩
    refine normal_cons.mpr ⟨hthere.of_definitions (hmovable e he).2 fun d hd hdefinition => ?_,
      ih hrest⟩
    rcases List.mem_append.mp hd with hd | hd
    · exact absurd hdefinition (hmovable d (hrest hd)).1
    · exact List.mem_append_right after hd

/-! ## Looking up -/

theorem bodyOf?_eq_some {name : String} {e : Expr ν τ} {body : List (Expr ν τ)} :
    e.bodyOf? name = some body ↔ ∃ tag, e = .defn name body tag := by
  cases e with
  | defn n b tag =>
    simp only [Expr.bodyOf?, Option.ite_none_right_eq_some, Option.some.injEq, Expr.defn.injEq]
    constructor
    · intro h
      obtain ⟨rfl, rfl⟩ := h
      exact ⟨tag, rfl, rfl, rfl⟩
    · intro h
      obtain ⟨_, rfl, rfl, _⟩ := h
      exact ⟨rfl, rfl⟩
  | _ => simp [Expr.bodyOf?]

/-- A look-up fails where no definition of the name is to be found, at any depth. -/
theorem lookup_eq_none {name : String} {values : Stack ν τ} :
    Stack.lookup name values = none ↔ ∀ body tag, .defn name body tag ∉ values := by
  simp only [Stack.lookup, List.findSome?_eq_none_iff]
  constructor
  · intro h body tag hmem
    have hnone := h _ hmem
    rw [bodyOf?_eq_some.mpr ⟨tag, rfl⟩] at hnone
    cases hnone
  · intro h e he
    cases hb : e.bodyOf? name with
    | none => rfl
    | some body =>
      obtain ⟨tag, rfl⟩ := bodyOf?_eq_some.mp hb
      exact absurd he (h body tag)

theorem inert_word_iff {name : String} {values : Stack ν τ} :
    Inert host values (.word name) ↔ Stack.lookup name values = none := lookup_eq_none.symm

/-! ## One step -/

/-- What is told when an expression is pushed: that a native declined, and else nothing. -/
def Expr.deferral (host : Host ν τ) : Expr ν τ → Option Event
  | .native op _ => some (.defer (host.name op))
  | _ => none

theorem interpret_of_inert {values : Stack ν τ} {e : Expr ν τ} (h : Inert host values e)
    (tag : τ) : interpret host tag values e = .ok ⟨[], e :: values, e.deferral host⟩ := by
  cases e with
  | word name => simp only [interpret, inert_word_iff.mp h, Expr.deferral]
  | native op own => exact interpret_decline (h tag) own
  | comment text => exact h.elim
  | _ => rfl

/-- **Everything that a step can do.** A word is replaced by the nearest body of its name, a native
fires, a comment vanishes; whatever else is read is inert and pushed. -/
theorem interpret_cases (hl : host.Lawful) {tag : τ} {values : Stack ν τ} {e : Expr ν τ}
    {move : Move ν τ} (h : interpret host tag values e = .ok move) :
    (∃ name, e = .word name ∧ Stack.lookup name values = some move.front ∧
      move.values = values) ∨
    (∃ op own, e = .native op own ∧ host.act op tag values = .applied move.front move.values) ∨
    (∃ text, e = .comment text ∧ move.front = [] ∧ move.values = values) ∨
    (Inert host values e ∧ move = ⟨[], e :: values, e.deferral host⟩) := by
  cases e with
  | word name =>
    cases hb : Stack.lookup name values with
    | some body =>
      rw [interpret_resolve hb] at h
      cases h
      exact .inl ⟨name, rfl, hb, rfl⟩
    | none =>
      have hi : Inert host values (.word name) := inert_word_iff.mpr hb
      rw [interpret_of_inert hi] at h
      cases h
      exact .inr (.inr (.inr ⟨hi, rfl⟩))
  | native op own =>
    cases ha : host.act op tag values with
    | applied front base =>
      rw [interpret_fire ha] at h
      cases h
      exact .inr (.inl ⟨op, own, rfl, ha⟩)
    | deferred =>
      have hi : Inert host values (.native op own) := hl.declines ha
      rw [interpret_of_inert hi] at h
      cases h
      exact .inr (.inr (.inr ⟨hi, rfl⟩))
    | failed failure =>
      rw [interpret_fail ha] at h
      cases h
    | malformed shown => simp [interpret, ha] at h
  | comment text =>
    cases h
    exact .inr (.inr (.inl ⟨text, rfl, rfl, rfl⟩))
  | _ =>
    cases h
    exact .inr (.inr (.inr ⟨trivial, rfl⟩))

/-- **One step keeps the stack normal.** -/
theorem interpret_normal (hl : host.Lawful) {tag : τ} {values : Stack ν τ} {e : Expr ν τ}
    {move : Move ν τ} (hn : Normal host values) (h : interpret host tag values e = .ok move) :
    Normal host move.values := by
  rcases interpret_cases hl h with ⟨_, _, _, hv⟩ | ⟨_, _, _, ha⟩ | ⟨_, _, _, hv⟩ | ⟨hi, rfl⟩
  · exact hv ▸ hn
  · exact hn.of_suffix (hl.suffix ha)
  · exact hv ▸ hn
  · exact normal_cons.mpr ⟨hi, hn⟩

/-! ## Whole runs -/

/-- What a run leaves is normal. -/
theorem Runs.normal (hl : host.Lawful) {k : Nat} {pending : List (Expr ν τ)}
    {values final : Stack ν τ} (hn : Normal host values)
    (h : Runs host k pending values (.ok final)) : Normal host final := by
  generalize hr : (Except.ok final : Result ν τ) = r at h
  induction h with
  | done =>
    cases hr
    exact hn
  | step hi _ ih => exact ih (interpret_normal hl hn hi) hr
  | fail _ => cases hr

/-- A normal stack, read onto the part of it that is there already, comes back. -/
theorem Runs.of_normal {above base : Stack ν τ} (hn : Normal host (above ++ base)) (tag : τ) :
    Runs host above.length above.reverse base (.ok (above ++ base)) := by
  induction above with
  | nil => exact .done
  | cons e above ih =>
    obtain ⟨he, hrest⟩ := normal_cons.mp hn
    have hlast : Runs host 1 [e] (above ++ base) (.ok (e :: (above ++ base))) :=
      .step (interpret_of_inert he tag) .done
    simpa using (ih hrest).append hlast

namespace Machine

variable {m : Machine ν τ}

/-- A step leaves the stack as it was, unless it is the step of the host. -/
theorem step_normal (hl : m.host.Lawful) {s : State ν τ} (hn : Normal m.host s.values) :
    Normal m.host (m.step s).state.values := by
  obtain ⟨pending, values, steps, events⟩ := s
  cases pending with
  | nil => exact hn
  | cons e rest =>
    simp only [step]
    cases m.exceeded (steps + 1) with
    | some limit => exact hn
    | none =>
      cases hi : interpret m.host (m.host.stamp (steps + 1)) values e with
      | ok move => exact interpret_normal hl hn hi
      | error failure => exact hn

/-- **Every stack that the machine holds is normal**, if the one it began with was. -/
theorem normal_of_run (hl : m.host.Lawful) (n : Nat) {s : State ν τ}
    (hn : Normal m.host s.values) : Normal m.host (m.run n s).state.values := by
  induction n generalizing s with
  | zero => exact hn
  | succ n ih =>
    have hstep := step_normal hl hn
    rw [run]
    cases hs : m.step s with
    | running t =>
      rw [hs] at hstep
      exact ih hstep
    | finished t =>
      rw [hs] at hstep
      exact hstep
    | failed t failure =>
      rw [hs] at hstep
      exact hstep

/-- **A normal stack read again comes back one value at a time**: as many steps as there are
values, each pushing what it reads, and natives declining all that is told of them. -/
theorem run_of_normal (hm : m.limit = none) {pending base : List (Expr ν τ)}
    (rest : List (Expr ν τ)) (hn : Normal m.host (pending.reverse ++ base)) (steps : Nat)
    (events : List Event) :
    m.run pending.length ⟨pending ++ rest, base, steps, events⟩ =
      .running ⟨rest, pending.reverse ++ base, steps + pending.length,
        (if m.watched then (pending.filterMap (·.deferral m.host)).reverse else []) ++ events⟩ := by
  induction pending generalizing base steps events with
  | nil => simp [run]
  | cons e pending ih =>
    rw [List.reverse_cons, List.append_assoc, List.singleton_append] at hn
    have he : Inert m.host base e := hn e base (List.suffix_append _ _)
    rw [List.length_cons, run, List.cons_append, step_of_unlimited hm, interpret_of_inert he]
    simp only [List.reverse_nil, List.nil_append]
    rw [ih hn]
    congr 2
    · simp
    · omega
    · cases hw : m.watched <;> cases e <;> simp [note, Expr.deferral, hw]

end Machine
end Leftward
