import Leftward.Proofs.Grammar.Failing
import Leftward.Proofs.Primitive.Faults
import Leftward.Proofs.Program.Ending

/-!
# What is reported

A program that ends without a stack has found a fault, and a fault is reported. **Nothing else comes
out of a run** (`answer_of_ending`), but for one thing: a numeral of too many digits, be it in a
source or an integer that was to be shown. Where all numbers are short, there is always an answer.

What is found before anything is reduced is reported without a stack, and what is found by reducing
with one (`fault_located`): a part of the stack that the step was made on, of which the report shows
the beginning.
-/

namespace Leftward

variable {ν τ : Type}

/-- The cause is found while sources are read and parsed. -/
def Cause.Early : Cause ν τ → Prop
  | .unparsed _ | .nestedTooDeeply | .unreadable _ _ => True
  | _ => False

theorem Cause.Early.category_mem {cause : Cause ν τ} (h : cause.Early) :
    cause.category ∈ [.parseFailure, .sourceUnreadable] := by
  cases cause with
  | unparsed | nestedTooDeeply | unreadable => simp [category]
  | _ => exact h.elim

/-- What is found early is reported by its category and message alone. -/
theorem Cause.Early.exists_report {cause : Cause ν τ} (h : cause.Early) :
    ∃ reported, (⟨cause, none⟩ : Fault ν τ).report = some reported := by
  cases cause with
  | unparsed | nestedTooDeeply | unreadable => exact ⟨_, rfl⟩
  | _ => exact h.elim

namespace Program

variable {store : Source.Store} {choice : PreludeChoice} {texts : List (List Char)} {room : Nat}

/-! ## Before anything is reduced -/

theorem early_of_load {path : String} {failure : Failure ν τ}
    (h : Source.load store path = .error failure) :
    ∃ cause : Cause ν τ, cause.Early ∧ failure = cause.failure := by
  unfold Source.load at h
  split at h
  · cases h
  · rename_i obstacle _
    cases h
    exact ⟨.unreadable path obstacle, trivial, rfl⟩

theorem early_of_loadAll {paths : List String} {failure : Failure ν τ}
    (h : Source.loadAll store paths = .error failure) :
    ∃ cause : Cause ν τ, cause.Early ∧ failure = cause.failure := by
  induction paths with
  | nil => cases h
  | cons path rest ih =>
    rw [Source.loadAll] at h
    split at h
    · rename_i hload
      cases h
      exact early_of_load hload
    · exact ih (Grammar.error_of_map h)

theorem early_of_preludeTexts {failure : Failure Primitive Unit}
    (h : preludeTexts store choice = .error failure) :
    ∃ cause : Cause Primitive Unit, cause.Early ∧ failure = cause.failure := by
  cases choice with
  | absent | shipped => cases h
  | file path => exact early_of_loadAll h

/-- **What is wrong with texts that are no program.** -/
theorem assemble_eq_error {failure : Failure Primitive Unit}
    (h : assemble store choice texts room = .error failure) :
    (∃ cause : Cause Primitive Unit, cause.Early ∧ failure = cause.failure) ∨
      failure = .breakdown .notANumeral ∧ ∃ last, preludeTexts store choice = .ok last ∧
        ∃ numeral ∈ Grammar.numerals (join (texts ++ last)) room,
          Decimal.maxDigits < numeral.length := by
  unfold assemble at h
  split at h
  · rename_i found hprelude
    cases h
    exact .inl (early_of_preludeTexts hprelude)
  · rename_i last hlast
    split at h
    · rename_i found hparse
      cases h
      rcases Grammar.parse_eq_error hparse with rfl | ⟨unread, rfl⟩ | ⟨rfl, hlong⟩
      · exact .inl ⟨.nestedTooDeeply, trivial, rfl⟩
      · exact .inl ⟨.unparsed unread, trivial, rfl⟩
      · exact .inr ⟨rfl, last, hlast, hlong⟩
    · cases h

theorem early_of_assemble {fault : Fault Primitive Unit}
    (h : assemble store choice texts room = .error (.fault fault)) :
    fault.cause.Early ∧ fault.stack = none := by
  rcases assemble_eq_error h with ⟨cause, hearly, heq⟩ | ⟨heq, -⟩
  · cases heq
    exact ⟨hearly, rfl⟩
  · cases heq

theorem early_of_assembleFiles {paths : List String} {fault : Fault Primitive Unit}
    (h : assembleFiles store choice paths room = .error (.fault fault)) :
    fault.cause.Early ∧ fault.stack = none := by
  unfold assembleFiles at h
  split at h
  · rename_i found hload
    obtain ⟨cause, hearly, rfl⟩ := early_of_loadAll hload
    cases h
    exact ⟨hearly, rfl⟩
  · exact early_of_assemble h

/-! ## Answers -/

section Answers

variable {result : Result Primitive Unit}

/-- A stack is the answer if it is the result. -/
theorem answer_eq_stack_iff {values : Stack Primitive Unit} :
    answer result = .ok (.stack values) ↔ result = .ok values := by
  rcases result with (found | b) | values
  · cases hreport : found.report <;> simp [answer, hreport]
  · simp [answer]
  · simp [answer]

/-- A fault that is found is the answer, with what is told of it. -/
theorem answer_eq_fault_iff {fault : Fault Primitive Unit} {reported : String} :
    answer result = .ok (.fault fault reported) ↔
      result = .error (.fault fault) ∧ fault.Tells reported := by
  rw [← Fault.report_eq_some_iff]
  rcases result with (found | b) | values
  · cases hreport : found.report with
    | none =>
      simp only [answer, hreport, reduceCtorEq, false_iff]
      rintro ⟨heq, htold⟩
      cases heq
      rw [hreport] at htold
      cases htold
    | some text =>
      simp only [answer, hreport]
      constructor
      · intro h
        cases h
        exact ⟨rfl, hreport⟩
      · rintro ⟨heq, htold⟩
        cases heq
        rw [hreport] at htold
        cases htold
        rfl
  · simp [answer]
  · simp [answer]

/-- A breakdown comes in place of an answer if it is the result, or if there is nothing that can be
told of the fault that is. -/
theorem answer_eq_error_iff {b : Breakdown} :
    answer result = .error b ↔ result = .error (.breakdown b) ∨
      b = .unprintable ∧ ∃ fault, result = .error (.fault fault) ∧
        ∀ reported, ¬ fault.Tells reported := by
  simp only [← Fault.report_eq_some_iff, ← Option.eq_none_iff_forall_ne_some]
  rcases result with (found | breakdown) | values
  · cases hreport : found.report <;> simp [answer, hreport, eq_comm]
  · simp [answer]
  · simp [answer]

end Answers

variable {settings : Settings} {fuel : Nat} {e : Ending}

/-- A program that ends without a stack ends early, at a literal, or in a failure of the run. -/
theorem failure_of_ending {failure : Failure Primitive Unit}
    (h : ending store settings texts fuel room = some e) (hresult : e.result = .error failure) :
    (∃ cause : Cause Primitive Unit, cause.Early ∧ failure = cause.failure) ∨
    (failure = .breakdown .notANumeral ∧ ∃ last, preludeTexts store settings.prelude = .ok last ∧
      ∃ numeral ∈ Grammar.numerals (join (texts ++ last)) room,
        Decimal.maxDigits < numeral.length) ∨
    ∃ program, assemble store settings.prelude texts room = .ok program ∧
      failure.Arises settings.limit
        (settings.machine.run fuel (.start program [])).state.values := by
  rcases ending_cases h with
    ⟨found, hassemble, rfl⟩ | ⟨program, trace, result, hassemble, -, hended, rfl⟩
  · cases hresult
    rcases assemble_eq_error hassemble with hearly | hlong
    · exact .inl hearly
    · exact .inr (.inl hlong)
  · cases hresult
    obtain ⟨t, hrun⟩ := Status.eq_failed_of_result? hended
    refine .inr (.inr ⟨program, hassemble, ?_⟩)
    rw [hrun]
    exact Machine.arises_of_run Primitive.host_eq_hostWith hrun

/-- The breakdowns that a run can end in are about numbers of too many digits. -/
theorem breakdown_mem_of_ending {b : Breakdown}
    (h : ending store settings texts fuel room = some e)
    (hresult : e.result = .error (.breakdown b)) : b ∈ [.unprintable, .notANumeral] := by
  rcases failure_of_ending h hresult with ⟨cause, -, heq⟩ | ⟨heq, -⟩ | ⟨program, -, harises⟩
  · cases heq
  · cases heq
    simp
  · cases harises
    simp

/-- That a pair has not two members is never found. -/
theorem ne_pairOf_of_ending {fault : Fault Primitive Unit}
    (h : ending store settings texts fuel room = some e)
    (hresult : e.result = .error (.fault fault)) (count : Nat) : fault.cause ≠ .pairOf count := by
  intro hcause
  rcases failure_of_ending h hresult with ⟨cause, hearly, heq⟩ | ⟨heq, -⟩ | ⟨program, -, harises⟩
  · cases heq
    cases hcause
    exact hearly
  · cases heq
  · apply harises.category_not_mem
    rw [hcause]
    simp [Cause.category]

/-- **Only faults come out of a run**, and numbers of too many digits. If running a program ends at
all, there are three cases. A stack is answered as it is. A fault of the language is answered with
what is told of it, category and message first, and it is never that a pair has not two members.
Else a literal is too long, or an integer cannot be written, be it in the run or in what would be
told of its fault; nothing else breaks down. If the literals in the texts, the numbers on the last
stack and the limit are short enough, nothing breaks down. -/
theorem answer_of_ending (h : ending store settings texts fuel room = some e) :
    (∀ values, answer e.result = .ok (.stack values) ↔ e.result = .ok values) ∧
    (∀ fault reported, answer e.result = .ok (.fault fault reported) ↔
      e.result = .error (.fault fault) ∧ fault.Tells reported) ∧
    (∀ b, answer e.result = .error b ↔ e.result = .error (.breakdown b) ∨
      b = .unprintable ∧ ∃ fault, e.result = .error (.fault fault) ∧
        ∀ reported, ¬ fault.Tells reported) ∧
    (∀ b, e.result = .error (.breakdown b) → b ∈ [.unprintable, .notANumeral]) ∧
    (∀ fault count, e.result = .error (.fault fault) → fault.cause ≠ .pairOf count) ∧
    ((∀ last, preludeTexts store settings.prelude = .ok last →
        ∀ numeral ∈ Grammar.numerals (join (texts ++ last)) room,
          numeral.length ≤ Decimal.maxDigits) →
      (∀ program, assemble store settings.prelude texts room = .ok program →
        ∀ value ∈ (settings.machine.run fuel (.start program [])).state.values, value.Brief) →
      (∀ bound, settings.limit = some bound → Decimal.Brief bound) →
      (∃ values, e.result = .ok values) ∨
        ∃ fault reported, e.result = .error (.fault fault) ∧ fault.Tells reported) := by
  refine ⟨fun _ => answer_eq_stack_iff, fun _ _ => answer_eq_fault_iff,
    fun _ => answer_eq_error_iff, fun _ => breakdown_mem_of_ending h,
    fun _ count hfault => ne_pairOf_of_ending h hfault count,
    fun hshort hbrief hlimit => ?_⟩
  cases hresult : e.result with
  | ok values => exact .inl ⟨values, rfl⟩
  | error failure =>
    refine .inr ?_
    rcases failure_of_ending h hresult with
      ⟨cause, hearly, rfl⟩ | ⟨-, last, hlast, numeral, hnumeral, hlong⟩ | ⟨program, hok, harises⟩
    · obtain ⟨reported, hreported⟩ := hearly.exists_report
      exact ⟨_, reported, rfl, Fault.report_eq_some_iff.mp hreported⟩
    · exact absurd (hshort last hlast numeral hnumeral) (Nat.not_le_of_lt hlong)
    · cases failure with
      | breakdown b => exact absurd harises (Failure.Arises.not_breakdown (hbrief program hok))
      | fault fault =>
        obtain ⟨reported, hreported⟩ := harises.exists_report (hbrief program hok) hlimit
        exact ⟨fault, reported, rfl, Fault.report_eq_some_iff.mp hreported⟩

/-- A program whose last step divides by zero is answered with a report of that. -/
theorem answer_of_ending_division :
    let fault : Fault Primitive Unit :=
      ⟨.divisionByZero .div 1, some (.num 1 :: .num 0 :: primitives)⟩
    ending (fun _ => .error .missing) { prelude := .absent } [['/', ' ', '1', ' ', '0']] 30 0 =
        some ⟨.error (.fault fault), 30, ""⟩ ∧
      ∃ shown, Expr.Previews (.num 1 :: .num 0 :: primitives) shown ∧
        answer (.error (.fault fault)) = .ok (.fault fault
          ("ArithmeticFailure: Division by zero in '/ 1 0'" ++ "\nAt\n   " ++ shown)) := by
  intro fault
  have hending : ending (fun _ => .error .missing) { prelude := .absent }
      [['/', ' ', '1', ' ', '0']] 30 0 = some ⟨.error (.fault fault), 30, ""⟩ := rfl
  obtain ⟨-, hanswer, -, -, -, hshort⟩ := answer_of_ending hending
  have hreports : (∃ values, (.error (.fault fault) : Result Primitive Unit) = .ok values) ∨
      ∃ found reported, (.error (.fault fault) : Result Primitive Unit) = .error (.fault found) ∧
        found.Tells reported := by
    refine hshort ?_ ?_ fun bound hbound => by cases hbound
    · intro last hlast
      cases hlast
      have hnumerals : Grammar.numerals (join ([['/', ' ', '1', ' ', '0']] ++ [])) 0 = ["1", "0"] :=
        rfl
      rw [hnumerals]
      decide
    · intro program hprogram
      cases hprogram
      have hone : Decimal.Brief 1 := by decide
      have hzero : Decimal.Brief 0 := by decide
      show ∀ value ∈ (.num 1 :: .num 0 :: primitives : List Term), value.Brief
      refine List.forall_mem_cons.mpr ⟨(Expr.everywhere_leaf rfl).mpr hone,
        List.forall_mem_cons.mpr ⟨(Expr.everywhere_leaf rfl).mpr hzero, fun value hvalue => ?_⟩⟩
      obtain ⟨op, -, rfl⟩ := List.mem_map.mp hvalue
      exact (Expr.everywhere_leaf rfl).mpr trivial
  rcases hreports with ⟨values, heq⟩ | ⟨found, reported, heq, htells⟩
  · cases heq
  · cases heq
    have hanswered := (hanswer fault reported).mpr ⟨rfl, htells⟩
    have hone : Decimal.Brief 1 := by decide
    obtain ⟨text, shown, htext, hshown, rfl⟩ := Fault.tells_placed_iff.mp htells
    cases (Cause.message_divisionByZero hone.lt).symm.trans htext
    exact ⟨hending, shown, hshown, hanswered⟩

end Program

/-! ## Where it happened -/

open Primitive (hostWith) in
/-- **Every fault of a run says where it happened.** It shows a suffix of the stack on which the
step that failed was made, and all of it if values did not compare or the limit was exceeded; so
what it shows is normal if what the run began on was. Its report is category and message and the
beginning of that stack, and if the numbers there and the limit are short enough, there is one. What
is found before anything is reduced shows no stack, and is of other categories. -/
theorem fault_located :
    (∀ {τ : Type} (m : Machine Primitive τ) (stamp : Nat → τ), m.host = hostWith stamp →
      ∀ (p : List (Expr Primitive τ)) (base : Stack Primitive τ), Normal m.host base →
        ∀ (n : Nat) (t : State Primitive τ) (fault : Fault Primitive τ),
          m.run n (.start p base) = .failed t (.fault fault) →
          ∃ k s found, m.run k (.start p base) = .running s ∧ m.step s = .failed t (.fault fault) ∧
            fault.stack = some found ∧ found <:+ s.values ∧ Normal m.host found ∧
            (fault.cause.category ∈ [.stepLimitExceeded, .incomparableValues] → found = s.values) ∧
            fault.cause.category ∉ [.parseFailure, .sourceUnreadable] ∧
            (∀ reported, fault.report = some reported → fault.Reports found reported) ∧
            ((∀ e ∈ s.values, e.Brief) → (∀ bound, m.limit = some bound → Decimal.Brief bound) →
              ∃ reported, fault.report = some reported)) ∧
    ∀ (store : Source.Store) (choice : PreludeChoice) (fault : Fault Primitive Unit),
      (∃ texts room, Program.assemble store choice texts room = .error (.fault fault)) ∨
        (∃ paths room, Program.assembleFiles store choice paths room = .error (.fault fault)) →
      fault.stack = none ∧ fault.cause.category ∈ [.parseFailure, .sourceUnreadable] := by
  constructor
  · intro τ m stamp hm p base hb n t fault h
    obtain ⟨k, s, -, hrun, hstep⟩ := Machine.exists_run_of_failed h
    have harises := Machine.arises_of_step hm hstep
    obtain ⟨found, hstack, hsuffix⟩ := harises.exists_stack
    have hlawful : m.host.Lawful := hm ▸ Primitive.lawful_hostWith stamp
    have hnormal : Normal m.host s.values := by
      have hvalues := Machine.normal_of_run hlawful k (s := .start p base) hb
      rw [hrun] at hvalues
      exact hvalues
    refine ⟨k, s, found, hrun, hstep, hstack, hsuffix, hnormal.of_suffix hsuffix, ?_,
      harises.category_not_mem, fun _ => Fault.reports_of_report hstack, harises.exists_report⟩
    intro hcategory
    exact Option.some.inj (hstack.symm.trans (harises.stack_eq hcategory))
  · intro store choice fault h
    rcases h with ⟨texts, room, h⟩ | ⟨paths, room, h⟩
    · obtain ⟨hearly, hnone⟩ := Program.early_of_assemble h
      exact ⟨hnone, hearly.category_mem⟩
    · obtain ⟨hearly, hnone⟩ := Program.early_of_assembleFiles h
      exact ⟨hnone, hearly.category_mem⟩

/-- A program that gives up above a number, and a text that is no program. -/
theorem fault_located_croak :
    Normal Primitive.host [.num 2] ∧
      (⟨Primitive.host, none, false⟩ : Machine Primitive Unit).run 2
          (.start [.native .croak (), .word "m"] [.num 2]) =
        .failed ⟨[], [.word "m", .num 2], 2, []⟩ (.fault ⟨.croaked (.word "m"), some [.num 2]⟩) ∧
      (∃ reported,
        (⟨.croaked (.word "m"), some [.num 2]⟩ : Fault Primitive Unit).report = some reported ∧
          (⟨.croaked (.word "m"), some [.num 2]⟩ : Fault Primitive Unit).Reports [.num 2]
            reported) ∧
      Program.assemble (fun _ => .error .missing) .absent [['[']] 1 =
        .error (.fault ⟨.unparsed "[", none⟩) ∧
      (⟨.unparsed "[", none⟩ : Fault Primitive Unit).stack = none := by
  let m : Machine Primitive Unit := ⟨Primitive.host, none, false⟩
  have hnormal : Normal Primitive.host [.num 2] := normal_cons.mpr ⟨trivial, normal_nil⟩
  have hrun : m.run 2 (.start [.native .croak (), .word "m"] [.num 2]) =
      .failed ⟨[], [.word "m", .num 2], 2, []⟩ (.fault ⟨.croaked (.word "m"), some [.num 2]⟩) := rfl
  have hassemble : Program.assemble (fun _ => .error .missing) .absent [['[']] 1 =
      .error (.fault ⟨.unparsed "[", none⟩) := rfl
  refine ⟨hnormal, hrun, ?_, hassemble, (fault_located.2 _ _ _ (.inl ⟨_, _, hassemble⟩)).1⟩
  obtain ⟨k, s, found, -, hstep, hstack, -, -, -, -, hreports, hexists⟩ :=
    fault_located.1 m (fun _ => ()) rfl _ _ hnormal 2 _ _ hrun
  cases hstack
  obtain ⟨_, _, -, hstate, -⟩ := Machine.step_eq_failed hstep
  have hvalues : s.values = [.word "m", .num 2] := (congrArg State.values hstate).symm
  have hbrief : ∀ e ∈ s.values, e.Brief := by
    rw [hvalues]
    have hword : Expr.Brief (.word "m" : Expr Primitive Unit) :=
      (Expr.everywhere_leaf rfl).mpr trivial
    have htwo : Expr.Brief (.num 2 : Expr Primitive Unit) :=
      (Expr.everywhere_leaf rfl).mpr (show Decimal.Brief 2 by decide)
    simp [hword, htwo]
  obtain ⟨reported, hreported⟩ := hexists hbrief fun bound hbound => by cases hbound
  exact ⟨reported, hreported, hreports reported hreported⟩

end Leftward
