import Leftward.Proofs.Machine.GoingOn
import Leftward.Proofs.Prelude.Words

/-!
# Application — code that runs beneath what is saved

`apply`, `dip` and `dig` put the items of a quotation on the list of what is to be read, and `dip`
and `dig` put values of the stack in front of them. That is all: a reduction that calls one of them
**goes on as the reduction of those expressions** on what lies beneath (`apply_goesOn`,
`dip_goesOn`, `dig_goesOn`).

To reduce the quotation beneath the saved values, and then the saved values on top of what it left,
is what comes of it (`digging_hides`). The quotation is read first, and **while it is read the saved
values are carried along and not looked at** (`run_digging`). Then they are read again, and a word
among them is replaced if there is a definition of it by now. Of values that are no words and no
natives nothing comes but themselves.
-/

namespace Leftward

open Leftward.Expr

variable {ν τ : Type}

/-! ## What the three leave to be read -/

theorem Primitive.act_apply_quot (tag : τ) (items : List (Expr ν τ)) (rest : Stack ν τ) :
    Primitive.apply.act tag (quot items :: rest) = .applied items rest := rfl

theorem Primitive.act_dip_quot (tag : τ) (items : List (Expr ν τ)) (e : Expr ν τ)
    (rest : Stack ν τ) :
    Primitive.dip.act tag (quot items :: e :: rest) = .applied (e :: items) rest := rfl

namespace Machine

variable {m : Machine ν τ} {embed : Primitive → ν} {items : List (Expr ν τ)} {rest : Stack ν τ}

/-- A call of `apply` is a contract. -/
theorem reaches_apply {host : Host ν τ} (hs : host.Supplies embed) (own : τ)
    (items : List (Expr ν τ)) (rest : Stack ν τ) :
    Reaches host [quot [], native (embed .apply) own]
      [native (embed .apply) own, quot items].reverse rest items.reverse rest := by
  have hliteral : ∀ e ∈ [quot items], ∀ below, Inert host below e := by simp [Inert]
  have hfires (tag : τ) : host.act (embed .apply) tag ([quot items] ++ rest) =
      .applied items rest :=
    (hs _ _ _).trans (Primitive.act_apply_quot tag items rest)
  exact .fireOn hliteral hfires

/-- **`apply` goes on as the quotation.** -/
theorem apply_goesOn (hm : m.limit = none) (hs : m.host.Supplies embed) (own : τ)
    (items : List (Expr ν τ)) (rest : Stack ν τ) :
    m.GoesOnAs [native (embed .apply) own, quot items] rest [quot [], native (embed .apply) own]
      items rest :=
  goesOnAs_of_reaches hm (reaches_apply hs own items rest)

/-- **`dip` goes on as the quotation with one value in front of it.** -/
theorem dip_goesOn (hm : m.limit = none) (hs : m.host.Supplies embed) (own : τ)
    (items : List (Expr ν τ)) (e : Expr ν τ) (rest : Stack ν τ) :
    m.GoesOnAs [native (embed .dip) own, quot items] (e :: rest)
      [quot [], native (embed .dip) own] (e :: items) rest :=
  goesOnAs_of_fires hm (by simp [Inert])
    fun tag => (hs _ _ _).trans (Primitive.act_dip_quot tag items e rest)

/-- A call of `dig` is a contract. -/
theorem reaches_dig {host : Host ν τ} (hs : host.Supplies embed) (own : τ)
    (items : List (Expr ν τ)) {n : Nat} (hn : n ≤ rest.length) :
    Reaches host [quot [], num n, native (embed .dig) own]
      [native (embed .dig) own, num n, quot items].reverse rest (rest.take n ++ items).reverse
      (rest.drop n) := by
  have hliterals : ∀ e ∈ [num (n : Int), quot items], ∀ below, Inert host below e := by
    simp [Inert]
  have hfires (tag : τ) : host.act (embed .dig) tag ([num (n : Int), quot items] ++ rest) =
      .applied (rest.take n ++ items) (rest.drop n) :=
    (hs _ _ _).trans (Primitive.act_dig_quot tag items hn)
  exact .fireOn hliterals hfires

/-- **`dig` goes on as the quotation with so many values in front of it.** -/
theorem dig_goesOn (hm : m.limit = none) (hs : m.host.Supplies embed) (own : τ)
    (items : List (Expr ν τ)) {n : Nat} (hn : n ≤ rest.length) :
    m.GoesOnAs [native (embed .dig) own, num n, quot items] rest
      [quot [], num n, native (embed .dig) own] (rest.take n ++ items) (rest.drop n) :=
  goesOnAs_of_reaches hm (reaches_dig hs own items hn)

/-! ## What is saved -/

/-- **While the quotation is read, what is saved is carried along.** The machine is the one that
reads the quotation alone, with the saved values behind what is pending. -/
theorem run_digging (hm : m.limit = none) (hs : m.host.Supplies embed) (own : τ) {n : Nat}
    (hn : n ≤ rest.length) {k : Nat} {t : State ν τ}
    (h : (m.later 3).run k (.start items (rest.drop n)) = .running t) :
    ∃ told, m.run (3 + k) (.start [native (embed .dig) own, num n, quot items] rest) =
      .running ((t.before (rest.take n).reverse).resumed 3 told) := by
  obtain ⟨⟨told, hcalled⟩, -⟩ := exists_run_of_reaches hm (reaches_dig hs own items hn)
  have hread : (m.later 3).run k (.start (rest.take n ++ items) (rest.drop n)) =
      .running (t.before (rest.take n).reverse) := by
    rw [start_append, run_before (by simp [h]), h]
    rfl
  refine ⟨told, ?_⟩
  rw [run_add]
  simp only [List.length_cons, List.length_nil] at hcalled
  rw [hcalled]
  show m.run k _ = _
  rw [run_resumed hm, hread]
  rfl

theorem yieldsInParts_singleton (hm : m.limit = none) {part : List (Expr ν τ)} {base : Stack ν τ}
    {k : Nat} {result : Result ν τ} :
    m.YieldsInParts [part] base k result ↔ m.Yields part base k result := by
  rw [← yields_flatten_iff hm, List.flatten_cons, List.flatten_nil, List.append_nil]

/-- Values that are inert everywhere are reduced to themselves. -/
theorem yields_of_inert (hm : m.limit = none) {es : List (Expr ν τ)}
    (h : ∀ e ∈ es, ∀ below, Inert m.host below e) (base : Stack ν τ) :
    m.Yields es base es.length (.ok (es ++ base)) := by
  have hreads := Reaches.pushAll (v := base) h []
  rw [List.append_nil] at hreads
  simpa using (yields_of_reaches hm hreads).1

section Inert

variable {es part : List (Expr ν τ)} {base : Stack ν τ} {k : Nat}

/-- Such values, as the last part, are added to what the part before leaves. -/
theorem yieldsInParts_inert_ok_iff (hm : m.limit = none)
    (h : ∀ e ∈ es, ∀ below, Inert m.host below e) {final : Stack ν τ} :
    m.YieldsInParts [es, part] base k (.ok final) ↔ ∃ a below, k = a + es.length ∧
      m.Yields part base a (.ok below) ∧ final = es ++ below := by
  have hpushed (a : Nat) (below : Stack ν τ) :
      (m.later a).Yields es below es.length (.ok (es ++ below)) :=
    yields_of_inert (m := m.later a) hm h below
  rw [YieldsInParts]
  simp only [yieldsInParts_singleton hm]
  constructor
  · rintro (⟨failure, hresult, -⟩ | ⟨a, c, below, rfl, hpart, hread⟩)
    · cases hresult
    · obtain ⟨rfl, hfinal⟩ := hread.unique (hpushed a below)
      exact ⟨a, below, rfl, hpart, Except.ok.inj hfinal⟩
  · rintro ⟨a, below, rfl, hpart, rfl⟩
    exact .inr ⟨a, _, below, rfl, hpart, hpushed a below⟩

/-- They do not fail. -/
theorem yieldsInParts_inert_error_iff (hm : m.limit = none)
    (h : ∀ e ∈ es, ∀ below, Inert m.host below e) {failure : Failure ν τ} :
    m.YieldsInParts [es, part] base k (.error failure) ↔ m.Yields part base k (.error failure) := by
  rw [YieldsInParts]
  simp only [yieldsInParts_singleton hm]
  constructor
  · rintro (⟨found, hresult, hfails⟩ | ⟨a, c, below, -, -, hread⟩)
    · cases hresult
      exact hfails
    · have hpushed : (m.later a).Yields es below es.length (.ok (es ++ below)) :=
        yields_of_inert (m := m.later a) hm h below
      cases (hread.unique hpushed).2
  · intro hfails
    exact .inl ⟨failure, rfl, hfails⟩

end Inert

/-- `dig` reduces the quotation beneath what is saved, and what is saved on what that leaves. -/
theorem yields_dig_iff (hm : m.limit = none) (hs : m.host.Supplies embed) (own : τ)
    (items : List (Expr ν τ)) {n : Nat} (hn : n ≤ rest.length) {k : Nat} {result : Result ν τ} :
    m.Yields [native (embed .dig) own, num n, quot items] rest k result ↔ ∃ j, k = 3 + j ∧
      (m.later 3).YieldsInParts [rest.take n, items] (rest.drop n) j result := by
  have hlater : (m.later 3).limit = none := hm
  have hparts : [rest.take n, items].flatten = rest.take n ++ items := by
    rw [List.flatten_cons, List.flatten_cons, List.flatten_nil, List.append_nil]
  simp only [← yields_flatten_iff hlater, hparts]
  exact (dig_goesOn hm hs own items hn).yields k result

/-- **`dig`, `dip` and `apply` hide what they save.** To call `dig` on a quotation, above so many
values, is to reduce the quotation on what lies beneath them and then the values on what it left.
What is saved of a normal stack, no words and no natives, lies as it was on what the quotation left.
While the quotation is read, the machine is that of the quotation alone, with the saved values
behind what is pending, and so the same for all stacks that agree beneath them. With a depth of none
`dig` is `apply` and with a depth of one it is `dip`, each a step later, on every stack where there
is the depth.

A reduction that goes on does so with the machine as it is by then, which is the machine as it was
where natives do not look at their tags. -/
theorem digging_hides (hm : m.limit = none) (hs : m.host.Supplies embed) (own : τ)
    (items : List (Expr ν τ)) :
    (∀ (n : Nat) (rest : Stack ν τ), n ≤ rest.length →
      let dig := [native (embed .dig) own, num n, quot items]
      (∀ k result, m.Yields dig rest k result ↔ ∃ j, k = 3 + j ∧
        (m.later 3).YieldsInParts [rest.take n, items] (rest.drop n) j result) ∧
      (Normal m.host rest → (∀ e ∈ rest.take n, e.kind ≠ .word ∧ e.kind ≠ .function) →
        (∀ k final, m.Yields dig rest k (.ok final) ↔ ∃ a below, k = 3 + (a + n) ∧
          (m.later 3).Yields items (rest.drop n) a (.ok below) ∧ final = rest.take n ++ below) ∧
        ∀ k failure, m.Yields dig rest k (.error failure) ↔ ∃ a, k = 3 + a ∧
          (m.later 3).Yields items (rest.drop n) a (.error failure)) ∧
      ∀ other : Stack ν τ, n ≤ other.length → other.drop n = rest.drop n → ∀ k t,
        (m.later 3).run k (.start items (rest.drop n)) = .running t → ∃ told,
          m.run (3 + k) (.start dig other) =
            .running ((t.before (other.take n).reverse).resumed 3 told)) ∧
    (∀ (rest : Stack ν τ) k result,
      m.Yields [native (embed .dig) own, num 0, quot items] rest k result ↔ ∃ j, k = 1 + j ∧
        (m.later 1).Yields [native (embed .apply) own, quot items] rest j result) ∧
    (∀ (e : Expr ν τ) (rest : Stack ν τ) k result,
      m.Yields [native (embed .dig) own, num 1, quot items] (e :: rest) k result ↔ ∃ j, k = 1 + j ∧
        (m.later 1).Yields [native (embed .dip) own, quot items] (e :: rest) j result) ∧
    (m.host.Pure → ∀ made program onto k result,
      (m.later made).Yields program onto k result ↔ m.Yields program onto k result) := by
  have hlater (made : Nat) : (m.later made).limit = none := hm
  refine ⟨fun n rest hn => ?_, fun rest k result => ?_, fun e rest k result => ?_,
    fun hpure made program onto k result => yields_later_iff hm hpure⟩
  · intro dig
    refine ⟨fun k result => yields_dig_iff hm hs own items hn, fun hnormal hdata => ?_,
      fun other hother hbelow k t h => run_digging hm hs own hother (hbelow ▸ h)⟩
    have hinert : ∀ e ∈ rest.take n, ∀ below, Inert m.host below e := fun e he =>
      inert_of_data (hdata e he).1 (hdata e he).2 (hnormal.not_comment (List.mem_of_mem_take he))
    have hlength : (rest.take n).length = n := List.length_take_of_le hn
    refine ⟨fun k final => ?_, fun k failure => ?_⟩
    · rw [yields_dig_iff hm hs own items hn]
      simp only [yieldsInParts_inert_ok_iff (hlater 3) hinert, hlength]
      constructor
      · rintro ⟨_, rfl, a, below, rfl, hends, hfinal⟩
        exact ⟨a, below, rfl, hends, hfinal⟩
      · rintro ⟨a, below, rfl, hends, hfinal⟩
        exact ⟨a + n, rfl, a, below, rfl, hends, hfinal⟩
    · rw [yields_dig_iff hm hs own items hn]
      simp only [yieldsInParts_inert_error_iff (hlater 3) hinert]
  · have hdig := dig_goesOn hm hs own items (Nat.zero_le rest.length)
    exact hdig.behind (apply_goesOn (hlater 1) hs own items rest).yields rfl k result
  · have hdepth : 1 ≤ (e :: rest).length := by simp
    have hdig := dig_goesOn hm hs own items hdepth
    exact hdig.behind (dip_goesOn (hlater 1) hs own items e rest).yields rfl k result

/-- A word is saved that the quotation defines, and then values that no quotation can touch. -/
theorem digging_hides_defined :
    Primitive.host.Supplies (id : Primitive → Primitive) ∧
      (⟨Primitive.host, none, false⟩ : Machine Primitive Unit).Yields
        [native .dig (), num 1, quot [native .define (), word "seven", quot [num 7]]] [word "seven"]
        9 (.ok [num 7, defn "seven" [num 7] ()]) ∧
      Normal Primitive.host [chr 'a', quot [word "seven"], num 5, native .add ()] ∧
      (⟨Primitive.host, none, false⟩ : Machine Primitive Unit).Yields
        [native .dig (), num 2, quot [native .drop ()]]
        [chr 'a', quot [word "seven"], num 5, native .add ()] 6
        (.ok [chr 'a', quot [word "seven"], native .add ()]) := by
  have hsupplies : Primitive.host.Supplies (id : Primitive → Primitive) := fun _ _ _ => rfl
  have hnormal : Normal Primitive.host [chr 'a', quot [word "seven"], num 5, native .add ()] :=
    normal_cons.mpr ⟨trivial, normal_cons.mpr ⟨trivial, normal_cons.mpr ⟨trivial,
      normal_cons.mpr ⟨fun _ => rfl, normal_nil⟩⟩⟩⟩
  obtain ⟨hdefines, -⟩ := digging_hides (m := ⟨Primitive.host, none, false⟩) rfl hsupplies ()
    [native .define (), word "seven", quot [num 7]]
  obtain ⟨hdrops, -⟩ := digging_hides (m := ⟨Primitive.host, none, false⟩) rfl hsupplies ()
    [native .drop ()]
  obtain ⟨hword, -⟩ := hdefines 1 [word "seven"] (by decide)
  obtain ⟨-, hdata, -⟩ := hdrops 2 [chr 'a', quot [word "seven"], num 5, native .add ()] (by decide)
  obtain ⟨hends, -⟩ := hdata hnormal (by simp [Expr.kind])
  refine ⟨hsupplies, (hword _ _).mpr ?_, hnormal, (hends _ _).mpr ?_⟩
  · exact ⟨6, rfl, .inr ⟨4, 2, [defn "seven" [num 7] ()], rfl,
      .inr ⟨0, 4, [], rfl, ⟨rfl, rfl⟩, 5, rfl, rfl⟩, 3, rfl, rfl⟩⟩
  · exact ⟨1, [native .add ()], rfl, ⟨2, rfl, rfl⟩, rfl⟩

end Machine
end Leftward
