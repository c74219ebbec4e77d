import Leftward.Proofs.Primitive.Contract
import Leftward.Proofs.Primitive.Shuffling

/-!
# Rejoining — quotations taken apart and put together

`append` is the inverse of `splitAt` and `cons` that of `uncons`, but not for the same reason. What
`splitAt` leaves are two quotations, and a quotation is pushed wherever it is read: **whatever the
items are, the two parts can be joined again**, and joining is associative, with the empty quotation
as its unit. `uncons` takes an item out, and the item is read. It may be a comment, which vanishes,
or a word or a native that does something.

**To put it back is to undo `uncons` exactly if reading it just pushes it** (`quotations_rejoin`).
The other way round there is no condition, since the item has lain on the stack: of a normal stack
everything is pushed again.
-/

namespace Leftward

open Leftward.Expr

variable {ν τ : Type} {embed : Primitive → ν}

/-! ## What is just pushed -/

/-- Whatever tag is handed out, reading the expression on the values pushes it and does nothing
else. -/
def Host.Pushes (host : Host ν τ) (values : Stack ν τ) (e : Expr ν τ) : Prop :=
  ∀ tag, ∃ event, interpret host tag values e = .ok ⟨[], e :: values, event⟩

/-- An expression is just pushed if and only if it is inert. -/
theorem pushes_iff_inert {host : Host ν τ} (hl : host.Lawful) {values : Stack ν τ} {e : Expr ν τ} :
    host.Pushes values e ↔ Inert host values e := by
  constructor
  · intro h
    obtain ⟨event, hmove⟩ := h (host.stamp 0)
    rcases interpret_cases hl hmove with ⟨_, _, _, hsame⟩ | ⟨_, _, _, hfires⟩ |
      ⟨_, _, _, hsame⟩ | ⟨he, -⟩
    · exact absurd hsame (List.cons_ne_self e values)
    · exact absurd (hl.suffix hfires).length_le (Nat.not_succ_le_self values.length)
    · exact absurd hsame (List.cons_ne_self e values)
    · exact he
  · exact fun he tag => ⟨_, interpret_of_inert he tag⟩

/-- Above a quotation that is everything but comments, words that are defined beneath, and natives
that do not wait there. -/
theorem pushes_onto_quot_iff {host : Host ν τ} (hl : host.Lawful) {items : List (Expr ν τ)}
    {base : Stack ν τ} {e : Expr ν τ} :
    host.Pushes (quot items :: base) e ↔ e.kind ≠ .comment ∧
      (∀ name, e = word name → Stack.lookup name base = none) ∧
      ∀ op own, e = native op own → ∀ tag, host.act op tag (quot items :: base) = .deferred := by
  rw [pushes_iff_inert hl]
  cases e with
  | word name =>
    have hlookup : Stack.lookup name (quot items :: base) = Stack.lookup name base := rfl
    rw [inert_word_iff, hlookup]
    simp [kind]
  | native op own => simp [Inert, kind]
  | _ => simp [Inert, kind]

/-- Without a quotation beneath a value `cons` fails. -/
theorem Primitive.act_cons_cases (tag : τ) (values : Stack ν τ) :
    (∃ e items base, values = e :: quot items :: base ∧
        cons.act tag values = .applied [quot (e :: items)] base) ∨
      ∃ failure, cons.act tag values = .failed failure := by
  simp only [act]
  fun_cases Action.cons values with
  | case1 e items base => exact .inl ⟨e, items, base, rfl, rfl⟩
  | _ => exact .inr ⟨_, rfl⟩

namespace Machine

variable {m : Machine ν τ} {below values base : Stack ν τ} {items : List (Expr ν τ)} {e : Expr ν τ}

/-! ## Contracts -/

/-- A primitive, called on literals, that leaves literals puts them on the base. -/
theorem turns_of_call (hm : m.limit = none) (hs : m.host.Supplies embed) {p : Primitive} (own : τ)
    (operands front : List (Expr ν τ)) (hoperands : ∀ e ∈ operands, ∀ values, Inert m.host values e)
    (hfront : ∀ e ∈ front, ∀ values, Inert m.host values e) (hvalues : below <:+ values)
    (hbase : below <:+ base) (hact : ∀ tag, p.act tag (operands ++ values) = .applied front base) :
    m.Turns below (native (embed p) own :: operands) values (operands.length + (front.length + 1))
      (front ++ base) :=
  (turns_of_literals hm hoperands hvalues).trans
    (turns_of_fires hm hs own (hvalues.trans (List.suffix_append operands values)) hact
      (turns_of_literals hm hfront hbase))

theorem turns_quot (hm : m.limit = none) (items : List (Expr ν τ)) (hvalues : below <:+ values) :
    m.Turns below [quot items] values 1 (quot items :: values) :=
  turns_of_inert hm trivial hvalues

/-- `append` joins two quotations. -/
theorem turns_append (hm : m.limit = none) (hs : m.host.Supplies embed) (own : τ)
    (xs ys : List (Expr ν τ)) (hbase : below <:+ base) :
    m.Turns below [native (embed .append) own] (quot ys :: quot xs :: base) 2
      (quot (xs ++ ys) :: base) :=
  turns_of_call hm hs own [] [quot (xs ++ ys)] (by simp) (by simp [Inert])
    (hbase.trans ⟨[_, _], rfl⟩) hbase fun _ => rfl

/-- `splitAt` puts the front part uppermost. -/
theorem turns_splitAt (hm : m.limit = none) (hs : m.host.Supplies embed) (own : τ) {n : Nat}
    (hn : n ≤ items.length) (hbase : below <:+ base) :
    m.Turns below [native (embed .splitAt) own, num n, quot items] base 5
      (quot (items.take n) :: quot (items.drop n) :: base) :=
  turns_of_call hm hs own [num n, quot items] [quot (items.take n), quot (items.drop n)]
    (by simp [Inert]) (by simp [Inert]) hbase hbase
    fun tag => Primitive.act_splitAt_quot tag items hn

/-- `bury` exchanges two quotations. -/
theorem turns_bury_quot (hm : m.limit = none) (hs : m.host.Supplies embed) (own : τ)
    (xs ys : List (Expr ν τ)) (hbase : below <:+ base) :
    m.Turns below [native (embed .bury) own, num 1] (quot xs :: quot ys :: base) 4
      (quot ys :: quot xs :: base) :=
  turns_of_call hm hs own [num 1] [quot ys, quot xs] (by simp [Inert]) (by simp [Inert])
    (hbase.trans ⟨[_, _], rfl⟩) hbase
    fun tag => Primitive.act_bury_append tag (quot xs) [quot ys] base

/-- `cons` puts an item in front of the others. -/
theorem turns_cons (hm : m.limit = none) (hs : m.host.Supplies embed) (own : τ) (e : Expr ν τ)
    (items : List (Expr ν τ)) (hbase : below <:+ base) :
    m.Turns below [native (embed .cons) own] (e :: quot items :: base) 2
      (quot (e :: items) :: base) :=
  turns_of_call hm hs own [] [quot (e :: items)] (by simp) (by simp [Inert])
    (hbase.trans ⟨[_, _], rfl⟩) hbase fun _ => rfl

/-- `uncons` takes off the first item, if that is just pushed. -/
theorem turns_uncons (hm : m.limit = none) (hs : m.host.Supplies embed) (own : τ)
    (hpush : m.host.Pushes (quot items :: base) e) (hbase : below <:+ base) :
    m.Turns below [native (embed .uncons) own] (quot (e :: items) :: base) 3
      (e :: quot items :: base) := by
  have hvalues (items : List (Expr ν τ)) : below <:+ quot items :: base :=
    hbase.trans (List.suffix_cons _ base)
  have hitem : m.Turns below [e] (quot items :: base) 1 (e :: quot items :: base) :=
    turns_of_read hm (hvalues items) hpush turns_nil
  exact turns_of_fires hm hs own (hvalues (e :: items)) (fun _ => rfl)
    ((turns_quot hm items hbase).trans hitem)

/-! ## One after the other -/

section Programs

variable (hm : m.limit = none) (hs : m.host.Supplies embed) (own : Primitive → τ)

include hm hs

/-- The parts of a quotation are joined again. -/
theorem turns_cut_joined {n : Nat} (hn : n ≤ items.length) (hbase : below <:+ base) :
    m.Turns below [native (embed .append) (own .append), native (embed .bury) (own .bury), num 1,
      native (embed .splitAt) (own .splitAt), num n, quot items] base 11 (quot items :: base) := by
  have hjoined := turns_append hm hs (own .append) (items.take n) (items.drop n) hbase
  rw [List.take_append_drop] at hjoined
  exact (turns_splitAt hm hs _ hn hbase).trans
    ((turns_bury_quot hm hs _ (items.take n) (items.drop n) hbase).trans hjoined)

/-- Two quotations are joined. -/
theorem turns_two_joined (xs ys : List (Expr ν τ)) (hbase : below <:+ base) :
    m.Turns below [native (embed .append) (own .append), quot ys, quot xs] base 4
      (quot (xs ++ ys) :: base) := by
  have hfirst := turns_quot hm xs hbase
  have hsecond := turns_quot hm ys (hbase.trans (List.suffix_cons (quot xs) base))
  exact hfirst.trans (hsecond.trans (turns_append hm hs _ xs ys hbase))

/-- Three quotations are joined, the first two first. -/
theorem turns_three_joined (xs ys zs : List (Expr ν τ)) (hbase : below <:+ base) :
    m.Turns below [native (embed .append) (own .append), quot zs,
      native (embed .append) (own .append), quot ys, quot xs] base 7
      (quot (xs ++ ys ++ zs) :: base) := by
  have hthird := turns_quot hm zs (hbase.trans (List.suffix_cons (quot (xs ++ ys)) base))
  exact (turns_two_joined hm hs own xs ys hbase).trans
    (hthird.trans (turns_append hm hs _ (xs ++ ys) zs hbase))

/-- Three quotations are joined, the last two first. -/
theorem turns_three_joined_right (xs ys zs : List (Expr ν τ)) (hbase : below <:+ base) :
    m.Turns below [native (embed .append) (own .append), native (embed .append) (own .append),
      quot zs, quot ys, quot xs] base 7 (quot (xs ++ ys ++ zs) :: base) := by
  have hfirst := turns_quot hm xs hbase
  have hlast := turns_two_joined hm hs own ys zs (hbase.trans (List.suffix_cons (quot xs) base))
  rw [List.append_assoc]
  exact hfirst.trans (hlast.trans (turns_append hm hs _ xs (ys ++ zs) hbase))

/-- An item that is just pushed is put back. -/
theorem turns_uncons_cons (hpush : m.host.Pushes (quot items :: base) e)
    (hbase : below <:+ base) :
    m.Turns below [native (embed .cons) (own .cons), native (embed .uncons) (own .uncons),
      quot (e :: items)] base 6 (quot (e :: items) :: base) :=
  (turns_quot hm (e :: items) hbase).trans
    ((turns_uncons hm hs _ hpush hbase).trans (turns_cons hm hs _ e items hbase))

/-- A value that is just pushed is taken off again. -/
theorem turns_cons_uncons (hpush : m.host.Pushes (quot items :: base) e)
    (hbase : below <:+ base) :
    m.Turns below [native (embed .uncons) (own .uncons), native (embed .cons) (own .cons)]
      (e :: quot items :: base) 5 (e :: quot items :: base) :=
  (turns_cons hm hs _ e items hbase).trans (turns_uncons hm hs _ hpush hbase)

end Programs

/-! ## What `cons` was given -/

/-- What `cons` leaves says what it was given. -/
theorem eq_of_runs_cons {host : Host ν τ} (hs : host.Supplies embed) {own : τ} {k : Nat}
    (h : Runs host k [native (embed .cons) own] values (.ok (quot (e :: items) :: base))) :
    values = e :: quot items :: base := by
  cases h with
  | @step _ _ _ _ tag move _ hmove hrest =>
    rcases Primitive.act_cons_cases tag values with ⟨x, ys, below, rfl, hact⟩ | ⟨failure, hact⟩
    · rw [interpret_fire ((hs _ _ _).trans hact)] at hmove
      cases hmove
      cases hrest with
      | step hpush hdone =>
        cases hpush
        cases hdone
        rfl
    · rw [interpret_fail ((hs _ _ _).trans hact)] at hmove
      cases hmove

/-- If `cons` undoes `uncons`, the item lay on the rest of the quotation in between, so it is inert
there. -/
theorem inert_of_rejoined (hm : m.limit = none) (hs : m.host.Supplies embed) (hl : m.host.Lawful)
    (hn : Normal m.host base) {own : Primitive → τ} {k : Nat}
    (h : m.Yields [native (embed .cons) (own .cons), native (embed .uncons) (own .uncons),
      quot (e :: items)] base k (.ok (quot (e :: items) :: base))) :
    Inert m.host (quot items :: base) e := by
  obtain ⟨fuel, hresult, -⟩ := h
  obtain ⟨n, hruns, -⟩ := runs_of_run hm hresult
  have hfires (tag : τ) : m.host.act (embed .uncons) tag (quot (e :: items) :: base) =
      .applied [e, quot items] base := hs _ _ _
  have htaken : Reaches m.host [quot [], native (embed .uncons) (own .uncons), quot []]
      [quot (e :: items), native (embed .uncons) (own .uncons), native (embed .cons) (own .cons)]
      base [e, native (embed .cons) (own .cons)] (quot items :: base) :=
    (Reaches.pushQuot _).trans ((Reaches.fire hfires).trans (Reaches.pushQuot items))
  obtain ⟨j, -, hitem⟩ := htaken.runs hruns
  rcases Runs.split (p := [e]) hitem with ⟨_, hfailed, -⟩ | ⟨_, _, between, -, hread, hjoined⟩
  · cases hfailed
  · have hrest : Normal m.host (quot items :: base) := normal_cons.mpr ⟨trivial, hn⟩
    have hbetween : Normal m.host between := hread.normal hl hrest
    obtain rfl := eq_of_runs_cons hs hjoined
    exact (normal_cons.mp hbetween).1

/-! ## Taking apart and putting together -/

/-- **What is taken apart is put together again.** A quotation that is cut at any place, its parts
exchanged and joined, is the quotation that it was, whatever its items are. Joining is associative
and the empty quotation its unit on both sides. To take off the first item and put it back leaves
the quotation if reading that item just pushes it, which is so unless it is a comment, a word that
is defined beneath, or a native that does not wait there; and on a normal stack only if that is so.
To put a value of a normal stack in front of a quotation and take it off again leaves the stack.
Nothing of this takes off what lies beneath. -/
theorem quotations_rejoin (hm : m.limit = none) (hs : m.host.Supplies embed)
    (own : Primitive → τ) (base : Stack ν τ) :
    let call (p : Primitive) := native (embed p) (own p)
    (∀ (xs : List (Expr ν τ)) (n : Nat), n ≤ xs.length →
      m.YieldsOver base [call .append, call .bury, num 1, call .splitAt, num n, quot xs] base 11
        (quot xs :: base)) ∧
    (∀ xs ys zs : List (Expr ν τ),
      m.YieldsOver base [call .append, call .append, quot zs, quot ys, quot xs] base 7
        (quot (xs ++ ys ++ zs) :: base) ∧
      m.YieldsOver base [call .append, quot zs, call .append, quot ys, quot xs] base 7
        (quot (xs ++ ys ++ zs) :: base)) ∧
    (∀ xs : List (Expr ν τ),
      m.YieldsOver base [call .append, quot [], quot xs] base 4 (quot xs :: base) ∧
      m.YieldsOver base [call .append, quot xs, quot []] base 4 (quot xs :: base)) ∧
    (∀ (x : Expr ν τ) (ys : List (Expr ν τ)),
      let program := [call .cons, call .uncons, quot (x :: ys)]
      (m.host.Pushes (quot ys :: base) x →
        m.YieldsOver base program base 6 (quot (x :: ys) :: base)) ∧
      (m.host.Lawful →
        (m.host.Pushes (quot ys :: base) x ↔ x.kind ≠ .comment ∧
          (∀ name, x = word name → Stack.lookup name base = none) ∧
          ∀ op own, x = native op own → ∀ tag, m.host.act op tag (quot ys :: base) = .deferred) ∧
        (Normal m.host base → ∀ k, m.Yields program base k (.ok (quot (x :: ys) :: base)) →
          m.host.Pushes (quot ys :: base) x))) ∧
    ∀ (e : Expr ν τ) (ys : List (Expr ν τ)), Normal m.host (e :: quot ys :: base) →
      m.YieldsOver base [call .uncons, call .cons] (e :: quot ys :: base) 5
        (e :: quot ys :: base) := by
  intro call
  have hbase : base <:+ base := List.suffix_refl base
  have hunder (e : Expr ν τ) : base <:+ e :: base := List.suffix_cons e base
  refine ⟨fun xs n hn => ?_, fun xs ys zs => ⟨?_, ?_⟩, fun xs => ⟨?_, ?_⟩, fun x ys => ?_,
    fun e ys hn => ?_⟩
  · exact (turns_cut_joined hm hs own hn hbase).yieldsOver hm rfl (hunder _)
  · exact (turns_three_joined_right hm hs own xs ys zs hbase).yieldsOver hm rfl (hunder _)
  · exact (turns_three_joined hm hs own xs ys zs hbase).yieldsOver hm rfl (hunder _)
  · have hjoined := turns_two_joined hm hs own xs [] hbase
    rw [List.append_nil] at hjoined
    exact hjoined.yieldsOver hm rfl (hunder _)
  · exact (turns_two_joined hm hs own [] xs hbase).yieldsOver hm rfl (hunder _)
  · refine ⟨fun hpush => ?_, fun hl => ⟨pushes_onto_quot_iff hl, fun hn k hyields => ?_⟩⟩
    · exact (turns_uncons_cons hm hs own hpush hbase).yieldsOver hm rfl (hunder _)
    · exact (pushes_iff_inert hl).mpr (inert_of_rejoined hm hs hl hn hyields)
  · have hpush : m.host.Pushes (quot ys :: base) e := fun tag =>
      ⟨_, interpret_of_inert (normal_cons.mp hn).1 tag⟩
    exact (turns_cons_uncons hm hs own hpush hbase).yieldsOver hm rfl
      ((hunder _).trans (List.suffix_cons _ _))

/-- A quotation with a comment in it is cut and joined, but the comment is not put back once it has
been taken out. An addition is taken out and put back, and put in front and taken off. -/
theorem quotations_rejoin_waiting :
    Primitive.host.Supplies (id : Primitive → Primitive) ∧
      (⟨Primitive.host, none, false⟩ : Machine Primitive Unit).YieldsOver [num 2]
        [native .append (), native .bury (), num 1, native .splitAt (), num 1,
          quot [native .drop (), comment "c"]] [num 2] 11
        [quot [native .drop (), comment "c"], num 2] ∧
      (∀ k, ¬ (⟨Primitive.host, none, false⟩ : Machine Primitive Unit).Yields
        [native .cons (), native .uncons (), quot [comment "c"]] [num 2] k
        (.ok [quot [comment "c"], num 2])) ∧
      (⟨Primitive.host, none, false⟩ : Machine Primitive Unit).YieldsOver [num 2]
        [native .cons (), native .uncons (), quot [native .add (), word "x"]] [num 2] 6
        [quot [native .add (), word "x"], num 2] ∧
      Normal Primitive.host [native .add (), quot [word "x"], num 2] ∧
      (⟨Primitive.host, none, false⟩ : Machine Primitive Unit).YieldsOver [num 2]
        [native .uncons (), native .cons ()] [native .add (), quot [word "x"], num 2] 5
        [native .add (), quot [word "x"], num 2] := by
  have hsupplies : Primitive.host.Supplies (id : Primitive → Primitive) := fun _ _ _ => rfl
  have hlawful : Primitive.host.Lawful := Primitive.lawful_hostWith _
  have hbase : Normal Primitive.host [num 2] := normal_cons.mpr ⟨trivial, normal_nil⟩
  have hnormal : Normal Primitive.host [native .add (), quot [word "x"], num 2] :=
    normal_cons.mpr ⟨fun _ => rfl, normal_cons.mpr ⟨trivial, hbase⟩⟩
  have hpush : Primitive.host.Pushes [quot [word "x"], num 2] (native .add ()) :=
    fun _ => ⟨_, rfl⟩
  obtain ⟨hcut, -, -, htaken, hjoined⟩ := quotations_rejoin
    (m := (⟨Primitive.host, none, false⟩ : Machine Primitive Unit)) rfl hsupplies (fun _ => ())
    [num 2]
  obtain ⟨-, hcomment⟩ := htaken (comment "c") []
  obtain ⟨hpushes, honly⟩ := hcomment hlawful
  obtain ⟨hback, -⟩ := htaken (native .add ()) [word "x"]
  exact ⟨hsupplies, hcut [native .drop (), comment "c"] 1 (by decide),
    fun k hyields => (hpushes.mp (honly hbase k hyields)).1 rfl, hback hpush, hnormal,
    hjoined (native .add ()) [word "x"] hnormal⟩

end Machine
end Leftward
