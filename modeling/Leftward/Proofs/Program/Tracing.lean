import Leftward.Proofs.Machine.Watching
import Leftward.Proofs.Program.Ending

/-!
# Traces — what is told of a program

Asking for a trace changes nothing but that there is one (`tracing_only_observes`). It opens with
the program, of which there always is a preview, and goes on with **a line for each step that has
something to tell**, in order: that a word was replaced and how long the nearest body is, or that a
native declined. What there is to tell of a step is read off the run of which no trace is asked for.
-/

namespace Leftward

/-- The settings with a trace, or without. -/
def Settings.tracing (settings : Settings) (debug : Bool) : Settings := { settings with debug }

namespace Program

/-- The ending without its trace. -/
def Ending.untraced (e : Ending) : Ending := { e with trace := "" }

/-- The text that the lines make. -/
def textOf (lines : List String) : String := String.join (lines.map (· ++ "\n"))

variable {store : Source.Store} {settings : Settings} {texts : List (List Char)} {room : Nat}
  {program : List Term}

/-- The trace is the line that opens it, then a line for each event. -/
theorem trace_eq_textOf {shown : String} (h : Expr.Previews program shown)
    (status : Status Primitive Unit) :
    trace program status =
      some (textOf (("[DBG] PROGRAM " ++ shown) :: status.state.history.map Event.line)) := by
  have hline : (fun out line => out ++ line ++ "\n" : String → String → String) =
      fun out line => out ++ (line ++ "\n") := by
    funext out line
    exact String.append_assoc ..
  rw [trace, openingLine, Expr.preview_eq_some_iff.mpr h, Option.map_some, Option.map_some, hline]
  rw [textOf, String.join, List.foldl_map]

/-- A run that is traced comes to what it comes to without. -/
theorem run_tracing (fuel : Nat) :
    ((settings.tracing true).machine.run fuel (.start program [])).map State.unnoted =
      (settings.tracing false).machine.run fuel (.start program []) :=
  Machine.run_unnoted (m := (settings.tracing true).machine) fuel (.start program [])

theorem ending_untraced (fuel : Nat) :
    (ending store (settings.tracing true) texts fuel room).map Ending.untraced =
      ending store (settings.tracing false) texts fuel room := by
  cases hassemble : assemble store settings.prelude texts room with
  | error failure =>
    have htraced := ending_of_error (settings.tracing true) hassemble fuel
    have huntraced := ending_of_error (settings.tracing false) hassemble fuel
    rw [htraced, huntraced]
    rfl
  | ok program =>
    obtain ⟨text, -, htraced⟩ := ending_of_ok (settings.tracing true) hassemble fuel
    obtain ⟨nothing, hnothing, huntraced⟩ :=
      ending_of_ok (settings.tracing false) hassemble fuel
    cases hnothing
    rw [htraced, huntraced, ← run_tracing, result?_map, state_map]
    · cases ((settings.tracing true).machine.run fuel (.start program [])).result? <;> rfl
    · exact fun _ => rfl

/-- What is told of a traced run, read off the run that is not traced. -/
theorem traceOf_tracing (settings : Settings) {shown : String} (h : Expr.Previews program shown)
    (fuel : Nat) :
    traceOf (settings.tracing true) program
        ((settings.tracing true).machine.run fuel (.start program [])) =
      some (textOf (("[DBG] PROGRAM " ++ shown) ::
        (((settings.tracing false).machine.passed fuel (.start program [])).filterMap
          settings.machine.tells).map Event.line)) := by
  have hhistory := Machine.history_of_watching (m := settings.machine) fuel (.start program [])
  have htraced : (settings.tracing true).machine = settings.machine.watching true := rfl
  rw [traceOf, if_pos (show (settings.tracing true).debug = true from rfl),
    trace_eq_textOf h, htraced, hhistory]
  rfl

/-- **Asking for a trace changes nothing else**: a program comes to the same stack or failure in the
same number of steps, or to none, with a trace or without. If it is no program, the trace is empty.
If it is one, the trace is a line with the program's preview and then, for each step that goes on of
the run that is not traced, what there is to tell of it: of a word that is replaced a line with its
name and the length of the nearest body, of a native that declines a line with its name, and nothing
of any other step. -/
theorem tracing_only_observes (store : Source.Store) (settings : Settings)
    (texts : List (List Char)) (room : Nat) :
    (∀ fuel, (ending store (settings.tracing true) texts fuel room).map Ending.untraced =
      ending store (settings.tracing false) texts fuel room) ∧
    (∀ failure, assemble store settings.prelude texts room = .error failure →
      ∀ fuel, ending store (settings.tracing true) texts fuel room =
        some ⟨.error failure, 0, ""⟩) ∧
    ∀ program, assemble store settings.prelude texts room = .ok program →
      ∃ shown, Expr.Previews program shown ∧
        ∀ fuel events text,
          events = ((settings.tracing false).machine.passed fuel (.start program [])).filterMap
            settings.machine.tells →
          text = textOf (("[DBG] PROGRAM " ++ shown) :: events.map fun
            | .resolve name length => "[DBG] RESOLVE " ++ name ++ " body " ++ toString length
            | .defer name => "[DBG] DEFER " ++ name) →
          traceOf (settings.tracing true) program
              ((settings.tracing true).machine.run fuel (.start program [])) = some text ∧
          ∀ e, ending store (settings.tracing true) texts fuel room = some e → e.trace = text := by
  refine ⟨fun fuel => ending_untraced fuel, fun failure h fuel => ?_, ?_⟩
  · exact ending_of_error (settings.tracing true) h fuel
  intro program hassemble
  obtain ⟨shown, hshown⟩ := Expr.exists_previews (writable_of_assemble hassemble)
  refine ⟨shown, hshown, fun fuel events text hevents htext => ?_⟩
  have htrace : traceOf (settings.tracing true) program
      ((settings.tracing true).machine.run fuel (.start program [])) = some text := by
    rw [traceOf_tracing settings hshown fuel, ← hevents, htext]
    refine congrArg some (congrArg textOf (congrArg _ (List.map_congr_left fun event _ => ?_)))
    cases event <;> rfl
  refine ⟨htrace, fun e he => ?_⟩
  obtain ⟨found, hfound, hending⟩ := ending_of_ok (settings.tracing true) hassemble fuel
  obtain rfl : found = text := Option.some.inj (hfound.symm.trans htrace)
  rw [hending] at he
  obtain ⟨result, -, rfl⟩ := Option.map_eq_some_iff.mp he
  rfl

/-- A text that is no program, and one of which two steps have something to tell. -/
theorem tracing_only_observes_plus :
    assemble (fun _ => .error .missing) .absent [['[']] 1 =
        .error (.fault ⟨.unparsed "[", none⟩) ∧
      ending (fun _ => .error .missing) (Settings.tracing { prelude := .absent } true) [['[']] 5 1 =
        some ⟨.error (.fault ⟨.unparsed "[", none⟩), 0, ""⟩ ∧
      assemble (fun _ => .error .missing) .absent [['+']] 0 = .ok (.word "+" :: primitives) ∧
      ∃ shown, Expr.Previews (.word "+" :: primitives) shown ∧
        ending (fun _ => .error .missing) (Settings.tracing { prelude := .absent } true) [['+']]
            29 0 =
          some ⟨.ok (.native .add () :: primitives), 28,
            "[DBG] PROGRAM " ++ shown ++ "\n[DBG] RESOLVE + body 1\n[DBG] DEFER +\n"⟩ := by
  have hnone : assemble (fun _ => .error .missing) .absent [['[']] 1 =
      .error (.fault ⟨.unparsed "[", none⟩) := rfl
  have hplus : assemble (fun _ => .error .missing) .absent [['+']] 0 =
      .ok (.word "+" :: primitives) := rfl
  have hobserves := tracing_only_observes (fun _ => .error .missing) { prelude := .absent }
  obtain ⟨shown, hshown, htrace⟩ := (hobserves [['+']] 0).2.2 _ hplus
  obtain ⟨text, -, hending⟩ :=
    ending_of_ok (Settings.tracing { prelude := .absent } true) hplus 29
  have htext := (htrace 29 [.resolve "+" 1, .defer "+"] _ rfl rfl).2 _ hending
  obtain rfl : text = "[DBG] PROGRAM " ++ shown ++ "\n[DBG] RESOLVE + body 1\n[DBG] DEFER +\n" := by
    have hlines : text = textOf ["[DBG] PROGRAM " ++ shown, "[DBG] RESOLVE + body 1",
      "[DBG] DEFER +"] := htext
    simp only [hlines, textOf, List.map_cons, List.map_nil, String.join_cons, String.join_nil,
      String.append_assoc]
    rfl
  exact ⟨hnone, (hobserves [['[']] 1).2.1 _ hnone 5, hplus, shown, hshown, hending⟩

end Program
end Leftward
