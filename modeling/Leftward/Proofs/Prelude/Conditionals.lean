import Leftward.Proofs.Prelude.Foundation
import Leftward.Proofs.Primitive.Rereading

/-!
# `if` and `ifte`

**A conditional goes on as the branch it chooses, and as nothing else** (`conditionals_choose`): on
the stack that lay beneath what it took, with a script in which no item of the other branch occurs,
nor of the chosen one. What the branch then comes to, a stack, a failure or no end, the conditional
comes to.

Both words move the value that decides, and whatever is moved is read again. It need not be a plain
value for that to be harmless: where it lies, nothing is there for a word to be replaced by or for
arithmetic to take, and **there is nothing more above a quotation** (`Inert.aboveQuot`), which is
where it is put. What `ifte` asks is a program, and its answer lies on a stack of the machine; that
every such stack is normal is why the answer may be moved.
-/

namespace Leftward

open Leftward.Expr

variable {τ : Type}

/-! ## Hosts that supply the primitives and nothing else -/

theorem Host.Supplies.lawful {host : Host Primitive τ} (hs : host.Supplies id) : host.Lawful where
  declines {op s values} h t := by
    have hdefers : op.act s values = .deferred := (hs op s values).symm.trans h
    exact (hs op t values).trans
      (Primitive.act_eq_deferred_iff.mpr (Primitive.act_eq_deferred_iff.mp hdefers))
  suffix {op tag values front base} h := Primitive.act_suffix ((hs op tag values).symm.trans h)

/-- What is inert on some values is inert on any of them that lie under a quotation. -/
theorem Inert.aboveQuot {host : Host Primitive τ} (hs : host.Supplies id)
    {values below : Stack Primitive τ} {e : Expr Primitive τ} (h : Inert host values e)
    (hbelow : below ⊆ values) (items : List (Expr Primitive τ)) :
    Inert host (quot items :: below) e :=
  h.above hs hbelow (by simp [kind]) (by simp [kind])

/-- A stack of definitions is normal. -/
theorem normal_of_definitions {ν : Type} {host : Host ν τ} {values : Stack ν τ}
    (h : ∀ e ∈ values, e.isDefn = true) : Normal host values := by
  intro e rest hsuffix
  have he : e.isDefn = true := h e (hsuffix.subset List.mem_cons_self)
  cases e with
  | defn name body tag => trivial
  | _ => cases he

namespace Prelude

section Scripts

variable (own : Primitive → τ)

/-- The script of `ifte` and the three quotations in front of it, up to that of the one it asks. -/
def askingScript : List (Expr Primitive τ) :=
  quot [] :: quot [] :: quot [] :: word "ifte" :: num 2 :: called id own .dig

/-- The script of `ifte` from the answer it got up to that of the chosen quotation. -/
def choosingScript (c : Expr Primitive τ) : List (Expr Primitive τ) :=
  quot [] :: quot [] :: num 2 ::
    (called id own .exhume ++ (quot [] :: quot [] :: c.cover :: ifScript id own c))

end Scripts

/-- What `ifte` leaves to be read behind the quotation that it asks. -/
def choosing (T E : List (Expr Primitive τ)) : List (Expr Primitive τ) :=
  [word "if", word "exhume", num 2, quot T, quot E]

variable {m : Machine Primitive τ} {own : Primitive → τ} {s : Stack Primitive τ}

/-- **`if` goes on as the chosen quotation.** -/
theorem if_goesOn (hm : m.limit = none) (hs : m.host.Supplies id) (hv : Shipped id own s)
    {c : Expr Primitive τ} {T E : List (Expr Primitive τ)} (hc : c.isDefn = false)
    (hn : Normal m.host (c :: quot T :: quot E :: s)) :
    m.GoesOnAs [word "if"] (c :: quot T :: quot E :: s) (ifScript id own c)
      (if c.truthy then T else E) s := by
  have hbelow : s ⊆ quot T :: quot E :: s := fun _ he =>
    List.mem_cons_of_mem _ (List.mem_cons_of_mem _ he)
  have hpush : Inert m.host (quot E :: s) c := (normal_cons.mp hn).1.aboveQuot hs hbelow E
  have hreads := cond hs hv hc T E hpush []
  rw [List.append_nil] at hreads
  exact Machine.goesOnAs_of_reaches hm hreads

/-- `ifte` goes on as the quotation that it asks, with the choice left to be made. -/
theorem ifte_goesOn (hm : m.limit = none) (hs : m.host.Supplies id) (hv : Shipped id own s)
    (P T E : List (Expr Primitive τ)) :
    m.GoesOnAs [word "ifte", quot P, quot T, quot E] s (askingScript own)
      (choosing T E ++ P) s := by
  have hasks := ifte_asks hs hv P T E []
  refine Machine.goesOnAs_of_reaches hm ?_
  rw [List.reverse_append]
  exact (Reaches.pushQuot E).trans ((Reaches.pushQuot T).trans ((Reaches.pushQuot P).trans hasks))

/-- With an answer on the stack, the choice goes on as the chosen quotation. -/
theorem choosing_goesOn (hm : m.limit = none) (hs : m.host.Supplies id) (hv : Shipped id own s)
    {c : Expr Primitive τ} (hc : c.isDefn = false) (hn : Normal m.host (c :: s))
    (T E : List (Expr Primitive τ)) :
    m.GoesOnAs (choosing T E) (c :: s) (choosingScript own c) (if c.truthy then T else E) s := by
  have hinert : Inert m.host s c := (normal_cons.mp hn).1
  have hpush : Inert m.host (quot E :: s) c := hinert.aboveQuot hs (List.Subset.refl s) E
  have hpush' : Inert m.host (quot T :: quot E :: s) c :=
    hpush.aboveQuot hs (List.Subset.refl (quot E :: s)) T
  have hreads := ifte_chooses hs hv hc T E hpush hpush' []
  rw [List.append_nil] at hreads
  exact Machine.goesOnAs_of_reaches hm hreads

/-- **The conditionals run the chosen branch and nothing else.** Above a normal stack on which the
shipped definitions are the nearest of their names:

`if` goes on as the one quotation if the value counts as true, else as the other, on the stack
beneath all three. `ifte` fails if the quotation that it asks fails on the stack, and in the same
way; it goes on as the chosen quotation, on what lies beneath the answer, if there is one and the
shipped definitions are the nearest there; and it does not end if that quotation does not. Nothing
is read but what the asked quotation reads, what the chosen one reads, and the script of the words.

A reduction that goes on does so with the machine as it is by then, which is the machine as it was
where natives do not look at their tags. -/
theorem conditionals_choose (hm : m.limit = none) (hs : m.host.Supplies id)
    (hn : Normal m.host s) (hv : Shipped id own s) :
    (∀ (c : Expr Primitive τ) (T E : List (Expr Primitive τ)), c.isDefn = false →
      Normal m.host (c :: quot T :: quot E :: s) →
      m.GoesOnAs [word "if"] (c :: quot T :: quot E :: s) (ifScript id own c)
        (if c.truthy then T else E) s) ∧
    (∀ P T E : List (Expr Primitive τ),
      let asked := m.later (askingScript own).length
      let program := [word "ifte", quot P, quot T, quot E]
      (∀ k failure, asked.Yields P s k (.error failure) →
        m.Yields program s ((askingScript own).length + k) (.error failure)) ∧
      (∀ k c below, asked.Yields P s k (.ok (c :: below)) → c.isDefn = false →
        Shipped id own below →
        m.GoesOnAs program s
          (askingScript own ++ ((asked.reading k (.start P s)).map cover ++ choosingScript own c))
          (if c.truthy then T else E) below) ∧
      ((∀ k result, ¬ asked.Yields P s k result) → ∀ k result, ¬ m.Yields program s k result)) ∧
    (m.host.Pure → ∀ made program onto k result,
      (m.later made).Yields program onto k result ↔ m.Yields program onto k result) := by
  refine ⟨fun c T E hc hdecides => if_goesOn hm hs hv hc hdecides, fun P T E => ?_,
    fun hpure made program onto k result => Machine.yields_later_iff hm hpure⟩
  intro asked program
  have hlimit : asked.limit = none := hm
  have hasked := ifte_goesOn hm hs hv P T E
  refine ⟨fun k failure hfails => ?_, fun k c below hanswers hc hbelow => ?_,
    fun hnever k result hyields => ?_⟩
  · exact (hasked.yields _ _).mpr ⟨k, rfl, hfails.append_error (choosing T E)⟩
  · obtain ⟨n, hruns, -⟩ := Machine.runs_of_run hlimit hanswers.choose_spec.1
    have hlawful : asked.host.Lawful := Host.Supplies.lawful hs
    have hnormal : Normal asked.host (c :: below) := hruns.normal hlawful hn
    have hanswered := Machine.goesOnAs_of_yields hlimit hanswers (choosing T E)
    have hchosen (made : Nat) :=
      choosing_goesOn (m := asked.later made) hlimit hs hbelow hc hnormal T E
    exact hasked.trans (hanswered.trans (hchosen _))
  · obtain ⟨j, -, hwhole⟩ := (hasked.yields _ _).mp hyields
    rcases hwhole.split hlimit with ⟨failure, -, hfails⟩ | ⟨a, _, between, -, hends, -⟩
    · exact hnever _ _ hfails
    · exact hnever _ _ hends

/-- An addition decides that waits for its numbers, and is not read where numbers are. A question is
answered, and another one fails. -/
theorem conditionals_choose_waiting :
    ∃ program made base,
      Program.assemble (fun _ => .error .missing) .shipped [] 3 = .ok program ∧
      ({} : Settings).machine.Yields program [] made (.ok base) ∧
      Normal Primitive.host base ∧ Shipped id (fun _ => ()) base ∧
      Normal Primitive.host (native .add () :: quot [num 1] :: quot [word "croak"] :: base) ∧
      (∃ k, ({} : Settings).machine.Yields [word "if"]
        (native .add () :: quot [num 1] :: quot [word "croak"] :: base) k
        (.ok (num 1 :: base))) ∧
      (∃ k, ({} : Settings).machine.Yields
        [word "ifte", quot [bool false], quot [word "croak"], quot [num 2]] base k
        (.ok (num 2 :: base))) ∧
      ∃ k failure, ({} : Settings).machine.Yields
        [word "ifte", quot [native .croak (), quot [chr 'n', chr 'o']], quot [num 1], quot [num 2]]
        base k (.error failure) := by
  obtain ⟨program, made, hprogram, hbase⟩ :=
    yields_standing (fun _ => .error .missing) (Nat.le_refl 3)
  have hsupplies : ({} : Settings).machine.host.Supplies (id : Primitive → Primitive) :=
    fun _ _ _ => rfl
  have hnormal : Normal Primitive.host standing := normal_of_definitions isDefn_standing
  have hwaits : Normal Primitive.host
      (native .add () :: quot [num 1] :: quot [word "croak"] :: standing) :=
    normal_cons.mpr ⟨fun _ => rfl, normal_cons.mpr ⟨trivial, normal_cons.mpr ⟨trivial, hnormal⟩⟩⟩
  obtain ⟨hif, hifte, -⟩ :=
    conditionals_choose (m := ({} : Settings).machine) rfl hsupplies hnormal shipped_standing
  obtain ⟨-, hanswered, -⟩ := hifte [bool false] [word "croak"] [num 2]
  obtain ⟨hfails, -⟩ := hifte [native .croak (), quot [chr 'n', chr 'o']] [num 1] [num 2]
  have hanswers := hanswered 1 (bool false) standing ⟨2, rfl, rfl⟩ rfl shipped_standing
  refine ⟨program, made, standing, hprogram, hbase, hnormal, shipped_standing, hwaits, ?_, ?_, ?_⟩
  · exact ⟨_, ((hif (native .add ()) [num 1] [word "croak"] rfl hwaits).yields _ _).mpr
      ⟨1, rfl, 2, rfl, rfl⟩⟩
  · exact ⟨_, (hanswers.yields _ _).mpr ⟨1, rfl, 2, rfl, rfl⟩⟩
  · exact ⟨_, _, hfails _ _ ⟨2, rfl, rfl⟩⟩

end Prelude
end Leftward
