import Leftward.Proofs.Primitive.Contract

/-!
# Stacks of the primitives are normal

The primitives rearrange words, waiting natives and definitions in every way there is, and still
**no stack of a run holds a value that would do anything if it were read again**. For natives this
says where they can lie: what waits on a stack is arithmetic, and never above two numbers.

So reduction is idempotent, and not only on the whole of a result: **cut a result anywhere, read
the upper part onto the lower, and it comes back value by value** (`run_result_again`).
-/

namespace Leftward

open Primitive (hostWith)

/-- **All that a machine ever holds is normal.** With the primitives as natives, what is left
waiting is one of `+ - * / %`, and the two values beneath it are not both there and both numbers. -/
theorem run_values_normal :
    (∀ {ν τ : Type} (m : Machine ν τ), m.host.Lawful →
      ∀ (p : List (Expr ν τ)) (base : Stack ν τ), Normal m.host base →
        ∀ n, Normal m.host (m.run n (.start p base)).state.values) ∧
    ∀ {τ : Type} (stamp : Nat → τ) (limit : Option Int) (watched : Bool)
      (p : List (Expr Primitive τ)) (base : Stack Primitive τ), Normal (hostWith stamp) base →
        ∀ (n : Nat) (above : Stack Primitive τ) (op : Primitive) (tag : τ)
          (rest : Stack Primitive τ),
          ((⟨hostWith stamp, limit, watched⟩ : Machine Primitive τ).run n
            (.start p base)).state.values = above ++ .native op tag :: rest →
          op ∈ [Primitive.add, .sub, .mul, .div, .mod] ∧
            ¬ ∃ x y below, rest = .num x :: .num y :: below := by
  constructor
  · intro ν τ m hl p base hn n
    exact Machine.normal_of_run hl n hn
  · intro τ stamp limit watched p base hn n above op tag rest hv
    let m : Machine Primitive τ := ⟨hostWith stamp, limit, watched⟩
    have hrun : Normal (hostWith stamp) (m.run n (.start p base)).state.values :=
      Machine.normal_of_run (Primitive.lawful_hostWith stamp) n hn
    have hwaits : Inert (hostWith stamp) rest (.native op tag) := hrun _ _ ⟨above, hv.symm⟩
    exact Primitive.act_eq_deferred_iff.mp (hwaits tag)

/-- A run moves a waiting native beneath its operand, with nothing left for it to take. -/
theorem run_values_normal_exhumed :
    let m : Machine Primitive Unit := ⟨Primitive.host, none, false⟩
    let p : List (Expr Primitive Unit) :=
      [.native .exhume (), .num 1, .native .add (), .word "x"]
    m.host.Lawful ∧ Normal m.host [] ∧
      (m.run 6 (.start p [])).state.values = [.word "x", .native .add ()] ∧
      Normal m.host (m.run 6 (.start p [])).state.values ∧
      ¬ ∃ x y below, ([] : Stack Primitive Unit) = .num x :: .num y :: below := by
  intro m p
  have hfinal : (m.run 6 (.start p [])).state.values = [.word "x", .native .add ()] := rfl
  refine ⟨Primitive.lawful_hostWith _, normal_nil, hfinal, ?_, ?_⟩
  · exact run_values_normal.1 m (Primitive.lawful_hostWith _) p [] normal_nil 6
  · exact (run_values_normal.2 _ none false p [] normal_nil 6 [.word "x"] .add () [] hfinal).2

/-- **Reduction is idempotent at every cut.** If reducing a program onto a normal base ends in a
stack, then any upper part of that stack, reduced onto what lies beneath it, gives the stack back
in as many steps as it has values: each step pushes what it reads, so that no word is resolved and
every native declines. -/
theorem run_result_again {τ : Type} (stamp again : Nat → τ) (watched watched' : Bool)
    (p : List (Expr Primitive τ)) (base : Stack Primitive τ) (hb : Normal (hostWith stamp) base)
    {k : Nat} {final : Stack Primitive τ}
    (h : (⟨hostWith stamp, none, watched⟩ : Machine Primitive τ).Yields p base k (.ok final))
    (above below : Stack Primitive τ) (hcut : final = above ++ below) :
    (⟨hostWith again, none, watched'⟩ : Machine Primitive τ).run (above.length + 1)
        (.start above below) =
      .finished ⟨[], final, above.length,
        if watched' then above.filterMap (·.deferral (hostWith again)) else []⟩ ∧
    ∀ unread done, above = unread ++ done →
      (⟨hostWith again, none, watched'⟩ : Machine Primitive τ).run done.length
          (.start above below) =
        .running ⟨unread.reverse, done ++ below, done.length,
          if watched' then done.filterMap (·.deferral (hostWith again)) else []⟩ := by
  let m : Machine Primitive τ := ⟨hostWith again, none, watched'⟩
  have hfinal : Normal m.host (above ++ below) := by
    obtain ⟨n, hruns, _⟩ := Machine.runs_of_run rfl h.choose_spec.1
    exact hcut ▸ hruns.normal (Primitive.lawful_hostWith stamp) hb
  have hprefix : ∀ unread done, above = unread ++ done →
      m.run done.length (.start above below) =
        .running ⟨unread.reverse, done ++ below, done.length,
          if watched' then done.filterMap (·.deferral m.host) else []⟩ := by
    intro unread done heq
    subst heq
    have hdone : Normal m.host (done.reverse.reverse ++ below) := by
      rw [List.reverse_reverse]
      exact hfinal.of_suffix ⟨unread, by rw [List.append_assoc]⟩
    have hrun := Machine.run_of_normal (m := m) rfl unread.reverse hdone 0 []
    simpa [State.start, List.filterMap_reverse] using hrun
  refine ⟨?_, hprefix⟩
  rw [Machine.run_add, hprefix [] above rfl, hcut]
  rfl

/-- A word left over, a native waiting on it, and the two read again above their cut. -/
theorem run_result_again_waiting :
    Normal Primitive.host [] ∧
      (⟨Primitive.host, none, true⟩ : Machine Primitive Unit).run 3
          (.start [.native .add (), .word "x"] [.num 2]) =
        .finished ⟨[], [.native .add (), .word "x", .num 2], 2, [.defer "+"]⟩ := by
  let p : List (Expr Primitive Unit) :=
    [.native .bury (), .num 1, .word "x", .native .add (), .num 2]
  refine ⟨normal_nil, ?_⟩
  exact (run_result_again (fun _ => ()) (fun _ => ()) false true p [] normal_nil
    ⟨8, rfl, rfl⟩ [.native .add (), .word "x"] [.num 2] rfl).1

end Leftward
