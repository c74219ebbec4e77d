import Leftward.CommandLine
import Leftward.Proofs.Expr.Printing
import Leftward.Proofs.Grammar.Meaning
import Leftward.Proofs.Machine.Runs

/-!
# How running a program ends

Running texts as a program is putting them together, then, if someone watches, writing the opening
line of the trace, then reducing. Each of the three may be the end of it.

The second never is (`exists_traceOf`): however large the numbers of a program may become, **those
that are written in it can be written again**, so that a trace always has its opening line. So a
program that has been put together ends where its run does (`ending_of_ok`).
-/

namespace Leftward
namespace Program

variable {store : Source.Store} {texts : List (List Char)} {fuel room : Nat}
  {program : List Term}

/-! ## What is written in a program can be written again -/

theorem writable_of_made {e : Term} (h : Grammar.Made room e) :
    Expr.Everywhere Expr.Writable e := by
  refine h.1.imp fun e hsayable => ?_
  cases e with
  | num value => exact hsayable.1
  | _ => trivial

theorem writable_of_assemble {choice : PreludeChoice}
    (h : assemble store choice texts room = .ok program) :
    ∀ e ∈ program, Expr.Everywhere Expr.Writable e := by
  unfold assemble at h
  split at h
  · cases h
  · split at h
    · cases h
    · rename_i terms hparse
      cases h
      intro e he
      rcases List.mem_append.mp he with hterm | hprimitive
      · exact writable_of_made (Grammar.made_of_parse hparse e hterm)
      · obtain ⟨p, -, rfl⟩ := List.mem_map.mp hprimitive
        exact (Expr.everywhere_leaf rfl).mpr trivial

/-- **There always is a trace**, empty if nobody watches. -/
theorem exists_traceOf {choice : PreludeChoice}
    (h : assemble store choice texts room = .ok program) (settings : Settings)
    (status : Status Primitive Unit) : ∃ trace, traceOf settings program status = some trace := by
  obtain ⟨shown, hshown⟩ := Expr.exists_previews (writable_of_assemble h)
  rw [traceOf]
  by_cases hdebug : settings.debug
  · exact ⟨_, by rw [if_pos hdebug, trace, openingLine, Expr.preview_eq_some_iff.mpr hshown]; rfl⟩
  · exact ⟨_, if_neg hdebug⟩

/-! ## The three ends -/

theorem ending_of_error (settings : Settings) {failure : Failure Primitive Unit}
    (h : assemble store settings.prelude texts room = .error failure) (fuel : Nat) :
    ending store settings texts fuel room = some ⟨.error failure, 0, ""⟩ := by
  rw [ending, h, endingOf]

/-- **A program that has been put together ends where its run does.** -/
theorem ending_of_ok (settings : Settings)
    (h : assemble store settings.prelude texts room = .ok program) (fuel : Nat) :
    ∃ trace, traceOf settings program (settings.machine.run fuel (.start program [])) = some trace ∧
      ending store settings texts fuel room =
        (settings.machine.run fuel (.start program [])).result?.map fun result =>
          ⟨result, (settings.machine.run fuel (.start program [])).state.steps, trace⟩ := by
  obtain ⟨trace, htrace⟩ :=
    exists_traceOf h settings (settings.machine.run fuel (.start program []))
  exact ⟨trace, htrace, by rw [ending, h, endingOf, ended, htrace]⟩

/-- **What an ending is**: that of texts that are no program, or that of a run. -/
theorem ending_cases {settings : Settings} {e : Ending}
    (h : ending store settings texts fuel room = some e) :
    (∃ failure, assemble store settings.prelude texts room = .error failure ∧
      e = ⟨.error failure, 0, ""⟩) ∨
    ∃ program trace result, assemble store settings.prelude texts room = .ok program ∧
      traceOf settings program (settings.machine.run fuel (.start program [])) = some trace ∧
      (settings.machine.run fuel (.start program [])).result? = some result ∧
      e = ⟨result, (settings.machine.run fuel (.start program [])).state.steps, trace⟩ := by
  cases hassemble : assemble store settings.prelude texts room with
  | error failure =>
    rw [ending_of_error settings hassemble] at h
    cases h
    exact .inl ⟨failure, rfl, rfl⟩
  | ok program =>
    obtain ⟨trace, htrace, hending⟩ := ending_of_ok settings hassemble fuel
    rw [hending] at h
    obtain ⟨result, hresult, rfl⟩ := Option.map_eq_some_iff.mp h
    exact .inr ⟨program, trace, result, rfl, htrace, hresult, rfl⟩

/-- Files that give texts run as the texts. -/
theorem endingOfFiles_of_loadAll {paths : List String}
    (h : Source.loadAll (ν := Primitive) (τ := Unit) store paths = .ok texts) (settings : Settings)
    (fuel room : Nat) :
    endingOfFiles store settings paths fuel room = ending store settings texts fuel room := by
  rw [ending, endingOfFiles, assembleFiles, h]

/-- What a program comes to, running it ends with. -/
theorem exists_ending_of_yields (settings : Settings) {k : Nat} {result : Result Primitive Unit}
    (h : assemble store settings.prelude texts room = .ok program)
    (hyields : settings.machine.Yields program [] k result) :
    ∃ fuel e, ending store settings texts fuel room = some e ∧ e.result = result ∧ e.steps = k := by
  obtain ⟨fuel, hresult, hsteps⟩ := hyields
  obtain ⟨trace, -, hending⟩ := ending_of_ok settings h fuel
  exact ⟨fuel, ⟨result, k, trace⟩, by rw [hending, hresult, hsteps]; rfl, rfl, rfl⟩

end Program
end Leftward
