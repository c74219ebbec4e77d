import Leftward.Proofs.Primitive.Application
import Leftward.Proofs.Primitive.Contract

/-!
# Rereading — values that are put back where they were

No primitive moves a value from place to place: it takes it off the stack and leaves it to be read
again. Between the one and the other a word might be replaced and a native might fire. **Of a normal
stack nothing is lost by that** (`yields_of_rereads`): whatever is left to be read above the values
that it lay above comes back, in as many steps as there are values.

So a primitive that puts everything back where it was leaves the stack as it was, whatever lies on
it (`rereading_restores`). `dup` alone puts a value where none of its kind has been, above itself.
There too it stays, for a word is no definition and a native no number (`Inert.above`).
-/

namespace Leftward

open Leftward.Expr

variable {τ : Type}

/-- What is inert on some values is inert on any of them that lie under something else, unless that
is a definition or a number. -/
theorem Inert.above {host : Host Primitive τ} (hs : host.Supplies id)
    {values below : Stack Primitive τ} {e x : Expr Primitive τ} (h : Inert host values e)
    (hbelow : below ⊆ values) (hdefinition : x.kind ≠ .definition) (hnumber : x.kind ≠ .number) :
    Inert host (x :: below) e := by
  cases e with
  | comment text => exact h
  | word name =>
    intro body tag hmem
    rcases List.mem_cons.mp hmem with rfl | hmem
    · exact hdefinition rfl
    · exact h body tag (hbelow hmem)
  | native op own =>
    intro tag
    -- Only arithmetic waits, and it waits for numbers.
    have hwaits : op ∈ Primitive.arithmetic :=
      (Primitive.act_eq_deferred_iff.mp ((hs op tag values).symm.trans (h tag))).1
    have hnumbers : ¬ Action.TwoNumbers (x :: below) := by
      rintro ⟨n, k, rest, heq⟩
      cases heq
      exact hnumber rfl
    exact (hs op tag _).trans (Primitive.act_eq_deferred_iff.mpr ⟨hwaits, hnumbers⟩)
  | _ => trivial

/-- What is inert on some values is inert on itself above them. -/
theorem Inert.aboveItself {host : Host Primitive τ} (hs : host.Supplies id)
    {values : Stack Primitive τ} {e : Expr Primitive τ} (h : Inert host values e) :
    Inert host (e :: values) e := by
  cases e with
  | comment text => exact h
  | word name => exact h.above hs (List.Subset.refl values) (by simp [kind]) (by simp [kind])
  | native op own => exact h.above hs (List.Subset.refl values) (by simp [kind]) (by simp [kind])
  | _ => trivial

namespace Primitive

/-! ## What is put back -/

variable {ν : Type} (tag : τ) (e : Expr ν τ) (rest : Stack ν τ)

theorem act_bury_zero : bury.act tag (num 0 :: e :: rest) = .applied [e] rest :=
  act_bury_append tag e [] rest

theorem act_exhume_zero : exhume.act tag (num 0 :: e :: rest) = .applied [e] rest :=
  act_exhume_append tag e [] rest

theorem act_apply_native (op : ν) (own : τ) :
    apply.act tag (native op own :: rest) = .applied [native op own] rest := rfl

end Primitive

namespace Machine

variable {m : Machine Primitive τ}

/-- A normal stack comes back if its upper part is reduced onto the rest. -/
theorem yields_of_normal (hm : m.limit = none) {above below : Stack Primitive τ}
    (hn : Normal m.host (above ++ below)) :
    m.Yields above below above.length (.ok (above ++ below)) := by
  have hread : Normal m.host (above.reverse.reverse ++ below) := by rwa [List.reverse_reverse]
  have hrun := run_of_normal hm [] hread 0 []
  rw [List.append_nil, List.length_reverse, List.reverse_reverse] at hrun
  exact yields_ok_iff.mpr ⟨_, hrun, rfl, rfl⟩

/-- **What is left to be read in its place stays**: a primitive, called on literals, that leaves a
part of a normal stack to be read on the rest of it leaves that stack. -/
theorem yields_of_rereads (hm : m.limit = none) (hs : m.host.Supplies id) {p : Primitive} (own : τ)
    {operands : List (Expr Primitive τ)} {rest : Stack Primitive τ}
    (above below : Stack Primitive τ)
    (hoperands : ∀ e ∈ operands, ∀ below, Inert m.host below e)
    (hact : ∀ tag, p.act tag (operands ++ rest) = .applied above below)
    (hn : Normal m.host (above ++ below)) :
    m.Yields (native p own :: operands) rest (operands.length + 1 + above.length)
      (.ok (above ++ below)) := by
  have hfires : m.GoesOnAs (native p own :: operands) rest
      ((operands.map cover).reverse ++ [native p own]) above below :=
    goesOnAs_of_fires hm hoperands fun tag => (hs p tag _).trans (hact tag)
  refine (hfires.yields _ _).mpr ⟨above.length, ?_, yields_of_normal (m := m.later _) hm hn⟩
  simp

/-- **To read a value again where it lay changes nothing.** On a normal stack, with any kind of
value on top: `dup` leaves that value twice; dropping one of the two, or applying the quotation of
the value, or moving it by no place, or saving any part of the stack from an empty quotation, leaves
the stack as it was; and so does to apply a native that waits on top of it. -/
theorem rereading_restores (hm : m.limit = none) (hs : m.host.Supplies id)
    {e : Expr Primitive τ} {rest : Stack Primitive τ} (hn : Normal m.host (e :: rest))
    (own : Primitive → τ) :
    let st := e :: rest
    let call (p : Primitive) := native p (own p)
    m.Yields [call .dup] st 3 (.ok (e :: st)) ∧
      m.Yields [call .drop, call .dup] st 4 (.ok st) ∧
      m.Yields [call .apply, call .quote] st 4 (.ok st) ∧
      m.Yields [call .bury, num 0] st 3 (.ok st) ∧
      m.Yields [call .exhume, num 0] st 3 (.ok st) ∧
      m.Yields [call .dip, quot []] st 3 (.ok st) ∧
      (∀ n : Nat, n ≤ st.length → m.Yields [call .dig, num n, quot []] st (3 + n) (.ok st)) ∧
      (e.kind = .function → m.Yields [call .apply] st 2 (.ok st)) := by
  intro st call
  obtain ⟨he, hrest⟩ := normal_cons.mp hn
  have htwice : Normal m.host (e :: st) := normal_cons.mpr ⟨he.aboveItself hs, hn⟩
  have hquoted : Normal m.host (quot [e] :: rest) := normal_cons.mpr ⟨trivial, hrest⟩
  have hnone : ∀ e ∈ ([] : List (Expr Primitive τ)), ∀ below, Inert m.host below e := by simp
  have hzero : ∀ e ∈ [(num 0 : Expr Primitive τ)], ∀ below, Inert m.host below e := by simp [Inert]
  have hquot (items : List (Expr Primitive τ)) :
      ∀ e ∈ [quot items], ∀ below, Inert m.host below e := by simp [Inert]
  have hdup : m.Yields [call .dup] st 3 (.ok (e :: st)) :=
    yields_of_rereads hm hs _ [e, e] rest hnone (fun _ => rfl) htwice
  have hdrop : (m.later 3).Yields [call .drop] (e :: st) 1 (.ok st) :=
    yields_of_rereads (m := m.later 3) hm hs _ [] st hnone (fun _ => rfl) hn
  have hquote : m.Yields [call .quote] st 2 (.ok (quot [e] :: rest)) :=
    yields_of_rereads hm hs _ [quot [e]] rest hnone (fun _ => rfl) hquoted
  have happly : (m.later 2).Yields [call .apply] (quot [e] :: rest) 2 (.ok st) :=
    yields_of_rereads (m := m.later 2) hm hs _ [e] rest hnone (fun _ => rfl) hn
  refine ⟨hdup, hdup.append hm hdrop, hquote.append hm happly, ?_, ?_, ?_, fun n hlength => ?_,
    fun hfunction => ?_⟩
  · exact yields_of_rereads hm hs _ [e] rest hzero
      (fun tag => Primitive.act_bury_zero tag e rest) hn
  · exact yields_of_rereads hm hs _ [e] rest hzero
      (fun tag => Primitive.act_exhume_zero tag e rest) hn
  · exact yields_of_rereads hm hs _ [e] rest (hquot [])
      (fun tag => Primitive.act_dip_quot tag [] e rest) hn
  · have hliterals : ∀ e ∈ [num (n : Int), quot []], ∀ below, Inert m.host below e := by
      simp [Inert]
    have hdig (tag : τ) : Primitive.dig.act tag ([num (n : Int), quot []] ++ st) =
        .applied (st.take n) (st.drop n) := by
      simpa using Primitive.act_dig_quot tag [] hlength
    have hwhole : st.take n ++ st.drop n = st := List.take_append_drop n st
    have hcut : Normal m.host (st.take n ++ st.drop n) := hwhole.symm ▸ hn
    have hdigs := yields_of_rereads hm hs (own .dig) _ _ hliterals hdig hcut
    rwa [hwhole, List.length_take_of_le hlength] at hdigs
  · cases e with
    | native op tag =>
      exact yields_of_rereads hm hs _ [native op tag] rest hnone
        (fun made => Primitive.act_apply_native made rest op tag) hn
    | _ => cases hfunction

/-- An addition waits above a word, which has no definition, and that above a number. -/
theorem rereading_restores_waiting :
    Primitive.host.Supplies (id : Primitive → Primitive) ∧
      Normal Primitive.host [native .add (), word "x", num 2] ∧
      (⟨Primitive.host, none, false⟩ : Machine Primitive Unit).Yields [native .dup ()]
        [native .add (), word "x", num 2] 3
        (.ok [native .add (), native .add (), word "x", num 2]) ∧
      (⟨Primitive.host, none, false⟩ : Machine Primitive Unit).Yields
        [native .dig (), num 2, quot []] [native .add (), word "x", num 2] 5
        (.ok [native .add (), word "x", num 2]) ∧
      (⟨Primitive.host, none, false⟩ : Machine Primitive Unit).Yields [native .apply ()]
        [native .add (), word "x", num 2] 2 (.ok [native .add (), word "x", num 2]) := by
  have hsupplies : Primitive.host.Supplies (id : Primitive → Primitive) := fun _ _ _ => rfl
  have hnormal : Normal Primitive.host [native .add (), word "x", num 2] :=
    normal_cons.mpr ⟨fun _ => rfl, normal_cons.mpr ⟨by simp [Inert],
      normal_cons.mpr ⟨trivial, normal_nil⟩⟩⟩
  obtain ⟨hdup, -, -, -, -, -, hdig, happly⟩ := rereading_restores
    (m := ⟨Primitive.host, none, false⟩) rfl hsupplies hnormal fun _ => ()
  exact ⟨hsupplies, hnormal, hdup, hdig 2 (by decide), happly rfl⟩

end Machine
end Leftward
