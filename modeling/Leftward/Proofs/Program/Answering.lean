import Leftward.Proofs.Program.Assembly
import Leftward.Proofs.Program.Reports

/-!
# What a command is answered with

A command names files. They are read first, in the order in which they are named, and **the first
that gives no text is what the answer is about**, whatever is in the others: nothing has been parsed
then, let alone reduced. Where all of them give text, the answer is what running the texts ends
with.

**It is all or nothing** (`answered_all_or_nothing`). The visible part of the result is written, and
nothing else, or a report is written to the standard error, and nothing else. The one other way out
is that a numeral of too many digits is to be read or written. Nothing is written to the standard
output then.
-/

namespace Leftward

/-! ## Reading the files -/

namespace Source

variable {ν τ : Type} {store : Store} {paths : List String}

/-- All files give text if each of them does. -/
theorem loadAll_eq_ok {texts : List (List Char)}
    (h : List.Forall₂ (fun path text => read store path = .ok text) paths texts) :
    loadAll (ν := ν) (τ := τ) store paths = .ok texts := by
  induction h with
  | nil => rfl
  | cons hread _ ih => simp only [loadAll, load, hread, ih, Except.map]

/-- **The first file that gives no text is the one that is told of.** -/
theorem loadAll_eq_error {before : List String} {path : String} {obstacle : Obstacle}
    (hbefore : ∀ p ∈ before, ∃ text, read store p = .ok text)
    (hpath : read store path = .error obstacle) (after : List String) :
    loadAll (ν := ν) (τ := τ) store (before ++ path :: after) =
      .error (Cause.unreadable path obstacle).failure := by
  induction before with
  | nil => simp only [List.nil_append, loadAll, load, hpath]
  | cons p before ih =>
    obtain ⟨text, htext⟩ := hbefore p List.mem_cons_self
    have hrest := ih fun q hq => hbefore q (List.mem_cons_of_mem p hq)
    simp only [List.cons_append, loadAll, load, htext, hrest, Except.map]

theorem exists_texts (h : ∀ p ∈ paths, ∃ text, read store p = .ok text) :
    ∃ texts, List.Forall₂ (fun path text => read store path = .ok text) paths texts := by
  induction paths with
  | nil => exact ⟨[], .nil⟩
  | cons path paths ih =>
    obtain ⟨text, htext⟩ := h path List.mem_cons_self
    obtain ⟨texts, htexts⟩ := ih fun p hp => h p (List.mem_cons_of_mem path hp)
    exact ⟨text :: texts, .cons htext htexts⟩

/-- If a file gives no text, there is a first that gives none. -/
theorem exists_first (h : ∃ p ∈ paths, ∃ obstacle, read store p = .error obstacle) :
    ∃ before first after obstacle, paths = before ++ first :: after ∧
      (∀ p ∈ before, ∃ text, read store p = .ok text) ∧ read store first = .error obstacle := by
  induction paths with
  | nil => simp at h
  | cons path paths ih =>
    cases hread : read store path with
    | error obstacle => exact ⟨[], path, paths, obstacle, rfl, by simp, hread⟩
    | ok text =>
      obtain ⟨p, hp, found, hfound⟩ := h
      rcases List.mem_cons.mp hp with rfl | hp
      · rw [hread] at hfound
        cases hfound
      · obtain ⟨before, first, after, obstacle, rfl, hbefore, hfirst⟩ := ih ⟨p, hp, found, hfound⟩
        refine ⟨path :: before, first, after, obstacle, rfl, ?_, hfirst⟩
        exact List.forall_mem_cons.mpr ⟨⟨text, hread⟩, hbefore⟩

end Source

/-! ## The answer -/

/-- A report says of which category the fault is before it says anything else. -/
theorem Fault.Tells.headed {ν τ : Type} {fault : Fault ν τ} {reported : String}
    (h : fault.Tells reported) :
    ∃ text, reported = fault.cause.category.name ++ (": " ++ text) := by
  cases h with
  | bare htext => exact ⟨_, String.append_assoc⟩
  | @placed cause found text shown htext hshown =>
    exact ⟨text ++ "\nAt\n   " ++ shown, by simp only [String.append_assoc]⟩

namespace CommandLine

/-- What an answer writes to the standard output. A breakdown writes nothing there. -/
def printed : Except Breakdown Response → String
  | .ok response => response.stdout
  | .error _ => ""

variable {store : Source.Store} {settings : Settings} {path : String} {others : List String}
  {fuel room : Nat}

/-- A report is told as it is. -/
theorem told_of_tells {fault : Fault Primitive Unit} {reported : String}
    (h : fault.Tells reported) : told true (some reported) = reported := by
  obtain ⟨text, rfl⟩ := h.headed
  unfold told
  split
  · contradiction
  · rename_i hempty
    simp at hempty
  · rfl

/-- **What is answered at an end**: the visible part of a stack, or what is told of a fault. -/
theorem response_eq_ok_iff {e : Program.Ending} {r : Response} :
    response e = .ok r ↔
      (∃ values text, e.result = .ok values ∧ Stack.renderVisible values = some text ∧
        r = ⟨text ++ "\n", e.trace, 0⟩) ∨
      ∃ fault reported, e.result = .error (.fault fault) ∧ fault.Tells reported ∧
        r = ⟨"", e.trace ++ reported ++ "\n", 1⟩ := by
  simp only [← Program.answer_eq_stack_iff, ← and_assoc, ← Program.answer_eq_fault_iff]
  rw [response]
  cases hanswer : Program.answer e.result with
  | error b => simp
  | ok answered =>
    cases answered with
    | stack values =>
      cases hshown : Stack.renderVisible values <;> simp [hshown, eq_comm]
    | fault fault reported =>
      have htells := (Program.answer_eq_fault_iff.mp hanswer).2
      simp [told_of_tells htells, eq_comm]

/-- What comes in place of an answer comes in place of the program's, or the stack cannot be
shown. -/
theorem response_eq_error {e : Program.Ending} {b : Breakdown} (h : response e = .error b) :
    Program.answer e.result = .error b ∨
      b = .unprintable ∧ ∃ values, e.result = .ok values ∧ Stack.renderVisible values = none := by
  rw [response] at h
  cases hanswer : Program.answer e.result with
  | error found =>
    rw [hanswer] at h
    cases h
    exact .inl rfl
  | ok answered =>
    rw [hanswer] at h
    cases answered with
    | fault fault reported => cases h
    | stack values =>
      simp only at h
      cases hshown : Stack.renderVisible values with
      | some text =>
        rw [hshown] at h
        cases h
      | none =>
        rw [hshown] at h
        cases h
        exact .inr ⟨rfl, values, Program.answer_eq_stack_iff.mp hanswer, hshown⟩

/-- **The command line answers what running the files ends with.** -/
theorem answer_eq_response :
    answer store settings (path :: others) fuel room =
      (Program.endingOfFiles store settings (path :: others) fuel room).map response := by
  simp only [answer, start, Program.endingOfFiles]
  cases Program.assembleFiles store settings.prelude (path :: others) room <;> rfl

/-- A failure to read the files is answered before there is a program. -/
theorem start_of_loadAll_error {failure : Failure Primitive Unit}
    (h : Source.loadAll store (path :: others) = .error failure) :
    start store settings (path :: others) room = .answered (response ⟨.error failure, 0, ""⟩) := by
  simp only [start, Program.assembleFiles, h]

end CommandLine

/-! ## The three ways out -/

section Telling

variable {ν τ : Type} {values : Stack ν τ}

theorem Stack.exists_texts (h : ∀ e ∈ values, ∃ text, e.render = some text) :
    ∃ texts, values.mapM Expr.render = some texts := by
  induction values with
  | nil => exact ⟨[], rfl⟩
  | cons e rest ih =>
    obtain ⟨text, htext⟩ := h e List.mem_cons_self
    obtain ⟨texts, htexts⟩ := ih fun x hx => h x (List.mem_cons_of_mem e hx)
    exact ⟨text :: texts, by rw [List.mapM_cons, htext, htexts]; rfl⟩

/-- A stack that cannot be shown holds a number that is too long. -/
theorem Stack.overlong_of_renderVisible (h : Stack.renderVisible values = none) :
    values.Overlong := by
  refine Classical.byContradiction fun hshort => ?_
  have hvisible : ∀ e ∈ values.visible, ∃ text, e.render = some text := fun e he =>
    Expr.exists_render (Stack.writable_of_not_overlong hshort e (List.mem_filter.mp he).1)
  obtain ⟨texts, htexts⟩ := Stack.exists_texts hvisible
  rw [Stack.renderVisible, Stack.render, htexts] at h
  cases h

/-- And so does a stack on which a run fails of a fault that cannot be told, if no limit is to be
told. -/
theorem Failure.Arises.overlong_of_not_tells {fault : Fault ν τ}
    (h : (Failure.fault fault).Arises none values) (hnone : ∀ reported, ¬ fault.Tells reported) :
    values.Overlong := by
  refine Classical.byContradiction fun hshort => ?_
  obtain ⟨reported, hreported⟩ :=
    h.exists_report_of_not_overlong hshort fun bound hbound => by cases hbound
  exact hnone reported (Fault.report_eq_some_iff.mp hreported)

end Telling

namespace Program

variable {store : Source.Store} {settings : Settings} {texts : List (List Char)} {fuel room : Nat}
  {e : Ending}

/-- Where nobody watches nothing is told. -/
theorem trace_of_ending (hdebug : settings.debug = false)
    (h : ending store settings texts fuel room = some e) : e.trace = "" := by
  rcases ending_cases h with ⟨failure, -, rfl⟩ | ⟨program, trace, result, -, htrace, -, rfl⟩
  · rfl
  · rw [traceOf, hdebug] at htrace
    cases htrace
    rfl

/-- The stack that was reached is the one on which the run has ended. -/
theorem values_of_ending {values : Stack Primitive Unit}
    (h : ending store settings texts fuel room = some e) (hresult : e.result = .ok values) :
    ∃ program, assemble store settings.prelude texts room = .ok program ∧
      (settings.machine.run fuel (.start program [])).state.values = values := by
  rcases ending_cases h with
    ⟨failure, -, rfl⟩ | ⟨program, trace, result, hassemble, -, hended, rfl⟩
  · cases hresult
  · cases hresult
    obtain ⟨t, hrun, rfl⟩ := Status.eq_finished_of_result? hended
    exact ⟨program, hassemble, by rw [hrun]; rfl⟩

/-- **An ending that cannot be answered has met a number of too many digits**: a literal that is
one, or an integer that lies on the stack where the run ended. -/
theorem breakdown_of_ending (hlimit : settings.limit = none) {b : Breakdown}
    (h : ending store settings texts fuel room = some e)
    (hresponse : CommandLine.response e = .error b) :
    (b = .notANumeral ∧ ∃ last, preludeTexts store settings.prelude = .ok last ∧
      ∃ numeral ∈ Grammar.numerals (join (texts ++ last)) room,
        Decimal.maxDigits < numeral.length) ∨
    b = .unprintable ∧ ∃ program, assemble store settings.prelude texts room = .ok program ∧
      (settings.machine.run fuel (.start program [])).state.values.Overlong := by
  rcases CommandLine.response_eq_error hresponse with hanswer | ⟨rfl, values, hresult, hnone⟩
  · rcases answer_eq_error_iff.mp hanswer with hresult | ⟨rfl, fault, hresult, hnone⟩
    · rcases failure_of_ending h hresult with
        ⟨cause, -, heq⟩ | ⟨heq, hlong⟩ | ⟨program, hprogram, harises⟩
      · cases heq
      · cases heq
        exact .inl ⟨rfl, hlong⟩
      · obtain ⟨hunprintable, hlong⟩ := harises.overlong_of_breakdown
        exact .inr ⟨hunprintable, program, hprogram, hlong⟩
    · rcases failure_of_ending h hresult with
        ⟨cause, hearly, heq⟩ | ⟨heq, -⟩ | ⟨program, hprogram, harises⟩
      · cases heq
        obtain ⟨reported, hreported⟩ := hearly.exists_report
        exact absurd (Fault.report_eq_some_iff.mp hreported) (hnone reported)
      · cases heq
      · rw [hlimit] at harises
        exact .inr ⟨rfl, program, hprogram, harises.overlong_of_not_tells hnone⟩
  · obtain ⟨program, hprogram, hvalues⟩ := values_of_ending h hresult
    exact .inr ⟨rfl, program, hprogram, hvalues ▸ Stack.overlong_of_renderVisible hnone⟩

/-- **What a source comes to on the shipped definitions, running it ends with.** -/
theorem exists_ending_of_standing {text : List Char} {terms : List Term} {k : Nat}
    {result : Result Primitive Unit} (store : Source.Store) (hroom : 3 ≤ room)
    (hparse : Grammar.parse text room = .ok terms)
    (hyields : ({} : Settings).machine.Yields terms Prelude.standing k result) :
    ∃ fuel e, ending store {} [text] fuel room = some e ∧ e.result = result := by
  obtain ⟨shipped, made, hshipped, hstanding⟩ := Prelude.yields_standing store hroom
  have halone : ReadAlone room [text] [terms] := .cons hparse .nil
  have hassemble : assemble store .shipped [text] room = .ok (terms ++ shipped) := by
    rw [assemble_of_readAlone halone, hshipped, List.flatten_singleton, Except.map]
  have hlater : (({} : Settings).machine.later made).Yields terms Prelude.standing k result :=
    (Machine.yields_later_iff rfl Primitive.pure_host).mpr hyields
  obtain ⟨fuel, e, he, hresult, -⟩ :=
    exists_ending_of_yields {} hassemble (hstanding.append rfl hlater)
  exact ⟨fuel, e, he, hresult⟩

end Program

open Program in
/-- **A command is answered with all or nothing, and what it names is read first.** If a file gives
no text, the first one that gives none is told of, and there is no program to run. Otherwise the
command is answered once running the texts has ended. A stack is answered with the texts of its
values but the definitions, with single spaces between them, if all of these have one, and a fault
with what is told of it, if that can be told. Else nothing is written to the standard output,
because there is a literal of too many digits, or such an integer on the last stack. -/
theorem answered_all_or_nothing (store : Source.Store) (path : String) (others : List String)
    (room : Nat) :
    ((∃ p ∈ path :: others, ∃ obstacle, Source.read store p = .error obstacle) →
      ∃ before first after obstacle response, path :: others = before ++ first :: after ∧
        (∀ p ∈ before, ∃ text, Source.read store p = .ok text) ∧
        Source.read store first = .error obstacle ∧
        response = CommandLine.Response.mk "" ("SourceUnreadable: Cannot read source file '" ++
          first ++ "': " ++ obstacle.text ++ "\n") 1 ∧
        CommandLine.start store {} (path :: others) room = .answered (.ok response) ∧
        ∀ fuel, CommandLine.answer store {} (path :: others) fuel room = some (.ok response)) ∧
    ((∀ p ∈ path :: others, ∃ text, Source.read store p = .ok text) →
      ∃ texts, List.Forall₂ (fun p text => Source.read store p = .ok text) (path :: others) texts ∧
        ∀ fuel,
          (CommandLine.answer store {} (path :: others) fuel room = none ↔
            ending store {} texts fuel room = none) ∧
          ∀ e, ending store {} texts fuel room = some e →
            ∃ response, CommandLine.answer store {} (path :: others) fuel room = some response ∧
              (∀ out err, response = .ok ⟨out, err, 0⟩ ↔
                ∃ values shown, e.result = .ok values ∧
                  Expr.PrintsAll (values.filter fun v => v.kind ≠ .definition) shown ∧
                  out = " ".intercalate (shown.filter (· ≠ "")) ++ "\n" ∧ err = "") ∧
              (∀ out err, response = .ok ⟨out, err, 1⟩ ↔
                ∃ fault reported, e.result = .error (.fault fault) ∧ fault.Tells reported ∧
                  out = "" ∧ err = reported ++ "\n") ∧
              ((∃ out err, response = .ok ⟨out, err, 0⟩) ∨
                (∃ out err, response = .ok ⟨out, err, 1⟩) ∨
                ∃ b, response = .error b ∧ CommandLine.printed response = "" ∧
                  ((b = .notANumeral ∧
                    ∃ numeral ∈ Grammar.numerals (join (texts ++ [preludeText.toList])) room,
                      Decimal.maxDigits < numeral.length) ∨
                  b = .unprintable ∧ ∃ program, assemble store .shipped texts room = .ok program ∧
                    (({} : Settings).machine.run fuel
                      (.start program [])).state.values.Overlong))) := by
  constructor
  · intro hunreadable
    obtain ⟨before, first, after, obstacle, hpaths, hbefore, hfirst⟩ :=
      Source.exists_first hunreadable
    have hload := Source.loadAll_eq_error (ν := Primitive) (τ := Unit) hbefore hfirst after
    rw [← hpaths] at hload
    have hstart : CommandLine.start store {} (path :: others) room =
        .answered (.ok ⟨"", "SourceUnreadable: Cannot read source file '" ++ first ++ "': " ++
          obstacle.text ++ "\n", 1⟩) := by
      rw [CommandLine.start_of_loadAll_error hload]
      have htells : (⟨.unreadable first obstacle, none⟩ : Fault Primitive Unit).Tells
          ("SourceUnreadable: Cannot read source file '" ++ first ++ "': " ++ obstacle.text) :=
        Fault.report_eq_some_iff.mp rfl
      exact congrArg _ (CommandLine.response_eq_ok_iff.mpr (.inr ⟨_, _, rfl, htells, by simp⟩))
    exact ⟨before, first, after, obstacle, _, hpaths, hbefore, hfirst, rfl, hstart,
      fun fuel => by rw [CommandLine.answer, hstart]⟩
  · intro hreadable
    obtain ⟨texts, htexts⟩ := Source.exists_texts hreadable
    have hload := Source.loadAll_eq_ok (ν := Primitive) (τ := Unit) htexts
    refine ⟨texts, htexts, fun fuel => ?_⟩
    rw [CommandLine.answer_eq_response, endingOfFiles_of_loadAll hload]
    refine ⟨Option.map_eq_none_iff, fun e he => ⟨CommandLine.response e, by rw [he]; rfl, ?_⟩⟩
    have hok (r : CommandLine.Response) := CommandLine.response_eq_ok_iff (e := e) (r := r)
    simp only [trace_of_ending rfl he, String.empty_append, Expr.renderVisible_eq_some_iff] at hok
    refine ⟨?_, ?_, ?_⟩
    · intro out err
      rw [hok]
      constructor
      · rintro (⟨values, text, hresult, ⟨shown, hshown, rfl⟩, hsame⟩ |
          ⟨fault, reported, -, -, hsame⟩)
        · cases hsame
          exact ⟨values, shown, hresult, hshown, rfl, rfl⟩
        · cases hsame
      · rintro ⟨values, shown, hresult, hshown, rfl, rfl⟩
        exact .inl ⟨values, _, hresult, ⟨shown, hshown, rfl⟩, rfl⟩
    · intro out err
      rw [hok]
      simp
    · cases hresponse : CommandLine.response e with
      | ok response =>
        rcases (hok response).mp hresponse with
          ⟨values, text, -, -, rfl⟩ | ⟨fault, reported, -, -, rfl⟩
        · exact .inl ⟨_, _, rfl⟩
        · exact .inr (.inl ⟨_, _, rfl⟩)
      | error b =>
        refine .inr (.inr ⟨b, rfl, rfl, ?_⟩)
        rcases breakdown_of_ending rfl he hresponse with ⟨rfl, last, hlast, hlong⟩ | hlong
        · cases hlast
          exact .inl ⟨rfl, hlong⟩
        · exact .inr hlong

open Program in
/-- A bracket that is never closed is not told of if the next file is missing. A number is written
without the definitions that lie beneath it, and a division by zero is told of with them. -/
theorem answered_all_or_nothing_three :
    let store : Source.Store := fun p =>
      if p = "open.fn" then .ok [0x5B] else if p = "one.fn" then .ok [0x31] else
      if p = "zero.fn" then .ok [0x2F, 0x20, 0x31, 0x20, 0x30] else .error .missing
    (∀ fuel, CommandLine.answer store {} ["open.fn", "gone.fn"] fuel 3 = some (.ok ⟨"",
      "SourceUnreadable: Cannot read source file 'gone.fn': No such file or directory\n", 1⟩)) ∧
    (∃ fuel e, ending store {} [['1']] fuel 3 = some e ∧
      e.result = .ok (.num 1 :: Prelude.standing) ∧
      CommandLine.answer store {} ["one.fn"] fuel 3 = some (.ok ⟨"1\n", "", 0⟩)) ∧
    ∃ fuel shown, Expr.Previews (.num 1 :: .num 0 :: Prelude.standing) shown ∧
      CommandLine.answer store {} ["zero.fn"] fuel 3 = some (.ok ⟨"",
        "ArithmeticFailure: Division by zero in '/ 1 0'\nAt\n   " ++ shown ++ "\n", 1⟩) := by
  intro store
  have hone : Decimal.Brief 1 := by decide
  have hzero : Decimal.Brief 0 := by decide
  refine ⟨?_, ?_, ?_⟩
  · have hopen : Source.read store "open.fn" = .ok ['['] := rfl
    have hgone : Source.read store "gone.fn" = .error .missing := rfl
    obtain ⟨before, first, after, obstacle, response, hpaths, hbefore, hfirst, rfl, -, hanswer⟩ :=
      (answered_all_or_nothing store "open.fn" ["gone.fn"] 3).1 ⟨"gone.fn", by simp, _, hgone⟩
    rcases List.append_eq_cons_iff.mp hpaths.symm with ⟨rfl, hafter⟩ | ⟨others, rfl, hothers⟩
    · cases hafter
      cases hopen.symm.trans hfirst
    · rcases List.append_eq_cons_iff.mp hothers.symm with ⟨rfl, hafter⟩ | ⟨more, rfl, hmore⟩
      · cases hafter
        cases hgone.symm.trans hfirst
        exact hanswer
      · simp at hmore
  · have hread : Source.read store "one.fn" = .ok ['1'] := rfl
    have hparse : Grammar.parse ['1'] 3 = .ok [(.num 1 : Term)] := rfl
    have hyields : ({} : Settings).machine.Yields [.num 1] Prelude.standing 1
        (.ok (.num 1 :: Prelude.standing)) := ⟨2, rfl, rfl⟩
    obtain ⟨fuel, e, he, hresult⟩ :=
      exists_ending_of_standing store (Nat.le_refl 3) hparse hyields
    obtain ⟨texts, htexts, hanswered⟩ :=
      (answered_all_or_nothing store "one.fn" [] 3).2 (by simp [hread])
    rcases htexts with _ | ⟨htext, ⟨⟩⟩
    cases hread.symm.trans htext
    obtain ⟨response, hanswer, hsuccess, -⟩ := (hanswered fuel).2 e he
    have hprints : Expr.PrintsAll ((Expr.num 1 :: Prelude.standing).filter
        fun v => v.kind ≠ .definition) ["1"] := .cons (.number hone.lt) .nil
    rw [(hsuccess _ _).mpr ⟨_, _, hresult, hprints, rfl, rfl⟩] at hanswer
    exact ⟨fuel, e, he, hresult, hanswer⟩
  · have hread : Source.read store "zero.fn" = .ok ['/', ' ', '1', ' ', '0'] := rfl
    let fault : Fault Primitive Unit :=
      ⟨.divisionByZero .div 1, some (.num 1 :: .num 0 :: Prelude.standing)⟩
    have hparse : Grammar.parse ['/', ' ', '1', ' ', '0'] 3 =
        .ok [(.word "/" : Term), .num 1, .num 0] := rfl
    have hyields : ({} : Settings).machine.Yields [.word "/", .num 1, .num 0] Prelude.standing 4
        (.error (.fault fault)) := ⟨4, rfl, rfl⟩
    obtain ⟨fuel, e, he, hresult⟩ :=
      exists_ending_of_standing store (Nat.le_refl 3) hparse hyields
    obtain ⟨texts, htexts, hanswered⟩ :=
      (answered_all_or_nothing store "zero.fn" [] 3).2 (by simp [hread])
    rcases htexts with _ | ⟨htext, ⟨⟩⟩
    cases hread.symm.trans htext
    obtain ⟨response, hanswer, -, hfailure, -⟩ := (hanswered fuel).2 e he
    have hwritable : ∀ v ∈ (.num 1 :: .num 0 :: Prelude.standing : List Term),
        Expr.Everywhere Expr.Writable v := by
      refine List.forall_mem_cons.mpr ⟨(Expr.everywhere_leaf rfl).mpr hone.lt,
        List.forall_mem_cons.mpr ⟨(Expr.everywhere_leaf rfl).mpr hzero.lt, fun v hv => ?_⟩⟩
      have hdefinition := Prelude.isDefn_standing v hv
      cases v with
      | defn name body tag => exact (Expr.everywhere_leaf rfl).mpr trivial
      | _ => cases hdefinition
    obtain ⟨shown, hshown⟩ := Expr.exists_previews hwritable
    have hmessage : (.divisionByZero .div 1 : Cause Primitive Unit).message =
        some "Division by zero in '/ 1 0'" := Cause.message_divisionByZero hone.lt
    have hreport := (hfailure _ _).mpr ⟨fault, _, hresult, .placed hmessage hshown, rfl, rfl⟩
    rw [hreport] at hanswer
    exact ⟨fuel, shown, hshown, hanswer⟩

end Leftward
