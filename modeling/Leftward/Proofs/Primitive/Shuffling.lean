import Leftward.Proofs.Machine.Resting
import Leftward.Proofs.Prelude.Words

/-!
# Shuffling — burying and exhuming

`bury` and `exhume` take values off the stack and leave them to be read again in another order. What
is read again might be replaced or fire, and in another order there is something else beneath it.
**A value that is neither a definition nor a native notices nothing of that** (`Normal.moved`): a
word that found no definition where it lay finds none among values of its kind either.

So the two are what their names say, and **each undoes the other at every depth**
(`burying_and_exhuming`), words without a definition included. What lies deeper is not taken off.
-/

namespace Leftward

open Leftward.Expr

variable {ν τ : Type} {embed : Primitive → ν}

namespace Machine

variable {m : Machine ν τ} {below values base final : Stack ν τ}

/-- A primitive that fires turns the values into what its front turns its base into. -/
theorem turns_of_fires (hm : m.limit = none) (hs : m.host.Supplies embed) {p : Primitive} (own : τ)
    {front : List (Expr ν τ)} {k : Nat} (hbelow : below <:+ values)
    (hact : ∀ tag, p.act tag values = .applied front base)
    (h : m.Turns below front base k final) :
    m.Turns below [native (embed p) own] values (k + 1) final :=
  turns_of_read hm hbelow
    (fun tag => ⟨_, interpret_fire ((hs p tag values).trans (hact tag)) own⟩) h

/-! ## One way and back -/

/-- A call with a number that leaves movable values of a normal stack to be read again in some order
puts them in that order. -/
theorem turns_of_moved (hm : m.limit = none) {call : Expr ν τ} {n : Int}
    {above moved : List (Expr ν τ)} {k : Nat} (hn : Normal m.host (above ++ base))
    (hmovable : ∀ e ∈ above, e.Movable) (hmoved : moved ⊆ above) (hbelow : below <:+ base)
    (hcall : below <:+ num n :: (above ++ base) →
      m.Turns below moved base moved.length (moved ++ base) →
      m.Turns below [call] (num n :: (above ++ base)) k (moved ++ base)) :
    m.Turns below [call, num n] (above ++ base) (1 + k) (moved ++ base) := by
  have hthere : below <:+ above ++ base := hbelow.trans (List.suffix_append above base)
  have hnumber : m.Turns below [num n] (above ++ base) 1 (num n :: (above ++ base)) :=
    turns_of_inert hm trivial hthere
  have hpushed : m.Turns below moved base moved.length (moved ++ base) :=
    turns_of_normal hm (hn.moved hmovable hmoved) hbelow
  exact hnumber.trans (hcall (hthere.trans (List.suffix_cons _ _)) hpushed)

section Depth

variable {st : Stack ν τ} {e : Expr ν τ} {above : List (Expr ν τ)} {n : Nat}

theorem turns_bury (hm : m.limit = none) (hs : m.host.Supplies embed) (own : τ)
    (hst : e :: above ++ below = st) (hlength : above.length = n) (hn : Normal m.host st)
    (hmovable : ∀ x ∈ e :: above, x.Movable) :
    m.Turns below [native (embed .bury) own, num n] st (n + 3) (above ++ [e] ++ below) := by
  subst hst hlength
  have hmoved : above ++ [e] ⊆ e :: above := by simp
  have hburies := turns_of_moved hm hn hmovable hmoved (List.suffix_refl below) fun hbelow =>
    turns_of_fires hm hs own hbelow fun tag => Primitive.act_bury_append tag e above below
  rwa [List.length_append, Nat.add_comm 1] at hburies

theorem turns_exhume (hm : m.limit = none) (hs : m.host.Supplies embed) (own : τ)
    (hst : above ++ [e] ++ below = st) (hlength : above.length = n) (hn : Normal m.host st)
    (hmovable : ∀ x ∈ above ++ [e], x.Movable) :
    m.Turns below [native (embed .exhume) own, num n] st (n + 3) (e :: above ++ below) := by
  subst hst hlength
  have hact (tag : τ) : Primitive.exhume.act tag (num above.length :: (above ++ [e] ++ below)) =
      .applied (e :: above) below := by
    rw [← List.append_cons]
    exact Primitive.act_exhume_append tag e above below
  have hmoved : e :: above ⊆ above ++ [e] := by simp
  have hexhumes := turns_of_moved hm hn hmovable hmoved (List.suffix_refl below) fun hbelow =>
    turns_of_fires hm hs own hbelow hact
  rwa [List.length_cons, Nat.add_comm 1] at hexhumes

/-- What is buried comes up again. -/
theorem turns_bury_exhume (hm : m.limit = none) (hs : m.host.Supplies embed) (own : Primitive → τ)
    (hst : e :: above ++ below = st) (hlength : above.length = n) (hn : Normal m.host st)
    (hmovable : ∀ x ∈ e :: above, x.Movable) :
    m.Turns below
      ([native (embed .exhume) (own .exhume), num n] ++ [native (embed .bury) (own .bury), num n])
      st (n + 3 + (n + 3)) st := by
  subst hst
  have hmoved : above ++ [e] ⊆ e :: above := by simp
  have hburied : Normal m.host (above ++ [e] ++ below) := hn.moved hmovable hmoved
  exact (turns_bury hm hs _ rfl hlength hn hmovable).trans
    (turns_exhume hm hs _ rfl hlength hburied fun x hx => hmovable x (hmoved hx))

/-- What is exhumed goes back to where it was. -/
theorem turns_exhume_bury (hm : m.limit = none) (hs : m.host.Supplies embed) (own : Primitive → τ)
    (hst : above ++ [e] ++ below = st) (hlength : above.length = n) (hn : Normal m.host st)
    (hmovable : ∀ x ∈ above ++ [e], x.Movable) :
    m.Turns below
      ([native (embed .bury) (own .bury), num n] ++ [native (embed .exhume) (own .exhume), num n])
      st (n + 3 + (n + 3)) st := by
  subst hst
  have hmoved : e :: above ⊆ above ++ [e] := by simp
  have hexhumed : Normal m.host (e :: above ++ below) := hn.moved hmovable hmoved
  exact (turns_exhume hm hs _ rfl hlength hn hmovable).trans
    (turns_bury hm hs _ rfl hlength hexhumed fun x hx => hmovable x (hmoved hx))

end Depth

/-- **`bury` and `exhume` undo each other at every depth.** Of a normal stack let the values down to
the depth be movable. To bury the uppermost one beneath as many as the number says puts it there,
and to exhume the one that lies there brings it up; the other values keep their order. To do the one
and then the other leaves the stack as it was. At no time is anything taken off that lies deeper. -/
theorem burying_and_exhuming (hm : m.limit = none) (hs : m.host.Supplies embed)
    (own : Primitive → τ) {n : Nat} {st : Stack ν τ} (hn : Normal m.host st)
    (hdepth : n < st.length) (hmovable : ∀ e ∈ st.take (n + 1), e.Movable) :
    let bury := [native (embed .bury) (own .bury), num n]
    let exhume := [native (embed .exhume) (own .exhume), num n]
    let below := st.drop (n + 1)
    m.YieldsOver below bury st (n + 3) ((st.drop 1).take n ++ st.take 1 ++ below) ∧
      m.YieldsOver below exhume st (n + 3) ([st[n]] ++ st.take n ++ below) ∧
      m.YieldsOver below (exhume ++ bury) st (2 * (n + 3)) st ∧
      m.YieldsOver below (bury ++ exhume) st (2 * (n + 3)) st := by
  intro bury exhume below
  have hbelow : below <:+ st := List.drop_suffix (n + 1) st
  have hunder (moved : List (Expr ν τ)) : below <:+ moved ++ below := List.suffix_append moved below
  have htwice : n + 3 + (n + 3) = 2 * (n + 3) := (Nat.two_mul _).symm
  have hlast : st.take n ++ [st[n]] = st.take (n + 1) := List.take_append_getElem hdepth
  have hexhumed : st.take n ++ [st[n]] ++ below = st := by rw [hlast, List.take_append_drop]
  have hlength : (st.take n).length = n := List.length_take_of_le (Nat.le_of_lt hdepth)
  have hmovable' : ∀ e ∈ st.take n ++ [st[n]], e.Movable := hlast ▸ hmovable
  -- `exhume` looks at the same values from their other end.
  cases st with
  | nil => cases hdepth
  | cons e tail =>
    have hburied : e :: tail.take n ++ below = e :: tail :=
      List.take_append_drop (n + 1) (e :: tail)
    have hlength' : (tail.take n).length = n := List.length_take_of_le (Nat.le_of_lt_succ hdepth)
    have hburies := turns_bury hm hs (own .bury) hburied hlength' hn hmovable
    have hexhumes := turns_exhume hm hs (own .exhume) hexhumed hlength hn hmovable'
    have hup := turns_bury_exhume hm hs own hburied hlength' hn hmovable
    have hback := turns_exhume_bury hm hs own hexhumed hlength hn hmovable'
    exact ⟨hburies.yieldsOver hm rfl (hunder _), hexhumes.yieldsOver hm rfl (hunder _),
      hup.yieldsOver hm htwice hbelow, hback.yieldsOver hm htwice hbelow⟩

/-- A word without a definition goes beneath a character and comes back, above an addition that
waits for a number. -/
theorem burying_and_exhuming_word :
    Primitive.host.Supplies (id : Primitive → Primitive) ∧
      Normal Primitive.host [word "x", chr 'a', native .add (), num 2] ∧
      (⟨Primitive.host, none, false⟩ : Machine Primitive Unit).YieldsOver [native .add (), num 2]
        [native .bury (), num 1] [word "x", chr 'a', native .add (), num 2] 4
        [chr 'a', word "x", native .add (), num 2] ∧
      (⟨Primitive.host, none, false⟩ : Machine Primitive Unit).YieldsOver [native .add (), num 2]
        [native .exhume (), num 1, native .bury (), num 1]
        [word "x", chr 'a', native .add (), num 2] 8
        [word "x", chr 'a', native .add (), num 2] := by
  have hsupplies : Primitive.host.Supplies (id : Primitive → Primitive) := fun _ _ _ => rfl
  have hnormal : Normal Primitive.host [word "x", chr 'a', native .add (), num 2] :=
    normal_cons.mpr ⟨by simp [Inert], normal_cons.mpr ⟨trivial, normal_cons.mpr ⟨fun _ => rfl,
      normal_cons.mpr ⟨trivial, normal_nil⟩⟩⟩⟩
  have hmovable : ∀ e ∈ [(word "x" : Expr Primitive Unit), chr 'a'], e.Movable := by decide
  obtain ⟨hburies, -, hback, -⟩ := burying_and_exhuming
    (m := (⟨Primitive.host, none, false⟩ : Machine Primitive Unit)) rfl hsupplies (fun _ => ())
    (n := 1) hnormal (by decide) hmovable
  exact ⟨hsupplies, hnormal, hburies, hback⟩

end Machine
end Leftward
