import Leftward.Proofs.Prelude.Conditionals
import Leftward.Proofs.Primitive.Shuffling

/-!
# `swap`, `over`, `nip`, `rot` and `unrot`

The prelude's shufflers are no primitives. They are words for `bury` and `exhume` at a fixed depth,
and two of them go beneath a value by `dip` and do there what `drop` and `dup` do. Their names, and
those of the words in them, are looked up on the stack that they rearrange.

**What they do is what their names say**, on every stack (`shufflers_rearrange`), as long as the
values are movable: they are looked through for definitions, and each of them is read again. A
contract here is one of the machine (`Machine.Turns`), so what lies beneath the values is not taken
apart and put together again, but left alone.
-/

namespace Leftward

open Leftward.Expr

variable {ν τ : Type} {embed : Primitive → ν} {own : Primitive → τ}

theorem Expr.Movable.not_defn {e : Expr ν τ} (h : e.Movable) : e.isDefn = false := by
  cases e with
  | defn => exact absurd rfl h.1
  | _ => rfl

/-- Movable values leave the definitions beneath them the nearest. -/
theorem Shipped.under {above : List (Expr ν τ)} {values : Stack ν τ} (h : Shipped embed own values)
    (hmovable : ∀ e ∈ above, e.Movable) : Shipped embed own (above ++ values) := by
  induction above with
  | nil => exact h
  | cons e above ih =>
    obtain ⟨he, habove⟩ := List.forall_mem_cons.mp hmovable
    exact (ih habove).above he.not_defn

namespace Prelude

variable {m : Machine ν τ}

/-! ## Words as contracts -/

section Words

variable {values below base final : Stack ν τ} {k : Nat}

/-- A word of the prelude turns the values into what its body turns them into. -/
theorem turns_of_word (hm : m.limit = none) (hv : Shipped embed own values) (w : Word)
    (hbelow : below <:+ values) (h : m.Turns below w.body values k final) :
    m.Turns below [word w.name] values (k + 1) final :=
  Machine.turns_of_read hm hbelow (fun tag => ⟨_, interpret_resolve (hv.prelude w) tag⟩) h

/-- A primitive that fires is called by its word. -/
theorem turns_of_called (hm : m.limit = none) (hs : m.host.Supplies embed)
    (hv : Shipped embed own values) {p : Primitive} {front : List (Expr ν τ)}
    (hbelow : below <:+ values) (hact : ∀ tag, p.act tag values = .applied front base)
    (h : m.Turns below front base k final) : m.Turns below [word p.name] values (k + 2) final :=
  Machine.turns_of_read hm hbelow (fun tag => ⟨_, interpret_resolve (hv.primitive p) tag⟩)
    (Machine.turns_of_fires hm hs (own p) hbelow hact h)

/-- **Beneath a value `dip` does what the quotation does**, if the value is pushed again on what
that leaves. -/
theorem turns_dip (hm : m.limit = none) (hs : m.host.Supplies embed)
    (hv : Shipped embed own values) {e : Expr ν τ} (he : e.Movable) {items : List (Expr ν τ)}
    (hbelow : below <:+ values) (h : m.Turns below items values k final)
    (hfinal : below <:+ final) (hpush : Inert m.host final e) :
    m.Turns below [word "dip", quot items] (e :: values) (1 + (k + 1 + 2)) (e :: final) := by
  have habove : below <:+ e :: values := hbelow.trans (List.suffix_cons e values)
  have hquot : m.Turns below [quot items] (e :: values) 1 (quot items :: e :: values) :=
    Machine.turns_of_inert hm trivial habove
  have hthere : Shipped embed own (quot items :: e :: values) :=
    Shipped.above (hv.above he.not_defn) rfl
  have hbeneath : m.Turns below (e :: items) values (k + 1) (e :: final) :=
    h.trans (Machine.turns_of_inert hm hpush hfinal)
  exact hquot.trans (turns_of_called hm hs hthere (habove.trans (List.suffix_cons _ _))
    (fun tag => Primitive.act_dip_quot tag items e values) hbeneath)

end Words

/-! ## The shufflers -/

section Shufflers

variable {a b c : Expr ν τ} {below rest : Stack ν τ}

/-- A word that stands for a primitive with a number puts movable values of a normal stack in the
order in which the primitive leaves them. -/
theorem turns_of_shuffler (hm : m.limit = none) (hs : m.host.Supplies embed)
    (hv : Shipped embed own rest) (w : Word) {p : Primitive} {n : Int}
    (hbody : (w.body : List (Expr ν τ)) = [word p.name, num n]) (above moved : List (Expr ν τ))
    (hn : Normal m.host (above ++ rest)) (hmovable : ∀ e ∈ above, e.Movable)
    (hmoved : moved ⊆ above) (hbelow : below <:+ rest)
    (hact : ∀ tag, p.act tag (num n :: (above ++ rest)) = .applied moved rest) :
    m.Turns below [word w.name] (above ++ rest) (1 + (moved.length + 2) + 1) (moved ++ rest) := by
  have hthere : Shipped embed own (above ++ rest) := hv.under hmovable
  refine turns_of_word hm hthere w (hbelow.trans (List.suffix_append above rest)) ?_
  rw [hbody]
  exact Machine.turns_of_moved hm hn hmovable hmoved hbelow fun hbelow =>
    turns_of_called hm hs (hthere.above (e := num n) rfl) hbelow hact

theorem turns_swap (hm : m.limit = none) (hs : m.host.Supplies embed)
    (hv : Shipped embed own rest) (hn : Normal m.host (a :: b :: rest))
    (hmovable : ∀ e ∈ [a, b], e.Movable) (hbelow : below <:+ rest) :
    m.Turns below [word "swap"] (a :: b :: rest) 6 (b :: a :: rest) :=
  turns_of_shuffler hm hs hv .swap rfl [a, b] [b, a] hn hmovable (by simp) hbelow
    fun tag => Primitive.act_bury_append tag a [b] rest

theorem turns_rot (hm : m.limit = none) (hs : m.host.Supplies embed)
    (hv : Shipped embed own rest) (hn : Normal m.host (a :: b :: c :: rest))
    (hmovable : ∀ e ∈ [a, b, c], e.Movable) (hbelow : below <:+ rest) :
    m.Turns below [word "rot"] (a :: b :: c :: rest) 7 (c :: a :: b :: rest) :=
  turns_of_shuffler hm hs hv .rot rfl [a, b, c] [c, a, b] hn hmovable (by simp) hbelow
    fun tag => Primitive.act_exhume_append tag c [a, b] rest

theorem turns_unrot (hm : m.limit = none) (hs : m.host.Supplies embed)
    (hv : Shipped embed own rest) (hn : Normal m.host (a :: b :: c :: rest))
    (hmovable : ∀ e ∈ [a, b, c], e.Movable) (hbelow : below <:+ rest) :
    m.Turns below [word "unrot"] (a :: b :: c :: rest) 7 (b :: c :: a :: rest) :=
  turns_of_shuffler hm hs hv .unrot rfl [a, b, c] [b, c, a] hn hmovable (by simp) hbelow
    fun tag => Primitive.act_bury_append tag a [b, c] rest

/-- `nip` drops what lies beneath. -/
theorem turns_nip (hm : m.limit = none) (hs : m.host.Supplies embed)
    (hv : Shipped embed own rest) (hpush : Inert m.host rest a) (ha : a.Movable) (hb : b.Movable)
    (hbelow : below <:+ rest) :
    m.Turns below [word "nip"] (a :: b :: rest) 7 (a :: rest) := by
  have hthere : Shipped embed own (b :: rest) := hv.above hb.not_defn
  have hbelow' : below <:+ b :: rest := hbelow.trans (List.suffix_cons b rest)
  have hdrop : m.Turns below [word "drop"] (b :: rest) 2 rest :=
    turns_of_called hm hs hthere (p := .drop) hbelow' (fun _ => rfl) Machine.turns_nil
  exact turns_of_word hm (hthere.above ha.not_defn) .nip (hbelow'.trans (List.suffix_cons a _))
    (turns_dip hm hs hthere ha hbelow' hdrop hbelow hpush)

/-- `over` doubles what lies beneath and brings it up. -/
theorem turns_over (hm : m.limit = none) (hs : m.host.Supplies embed)
    (hv : Shipped embed own rest) (hn : Normal m.host ([a, b] ++ rest)) (ha : a.Movable)
    (hb : b.Movable) (hbelow : below <:+ rest) :
    m.Turns below [word "over"] (a :: b :: rest) 15 (b :: a :: b :: rest) := by
  have hmovable : ∀ e ∈ [a, b], e.Movable := by simp [ha, hb]
  have hdoubling : [a, b, b] ⊆ [a, b] := by simp
  have hdoubled : Normal m.host ([a, b, b] ++ rest) := hn.moved hmovable hdoubling
  obtain ⟨hpush, htwice⟩ : Inert m.host (b :: b :: rest) a ∧ Normal m.host ([b, b] ++ rest) :=
    normal_cons.mp hdoubled
  have hthere : Shipped embed own (b :: rest) := hv.above hb.not_defn
  have hbelow' : below <:+ b :: rest := hbelow.trans (List.suffix_cons b rest)
  have hdup : m.Turns below [word "dup"] (b :: rest) 4 (b :: b :: rest) :=
    turns_of_called hm hs hthere (p := .dup) hbelow' (fun _ => rfl)
      (Machine.turns_of_normal hm htwice hbelow)
  have hdip := turns_dip hm hs hthere ha hbelow' hdup (hbelow'.trans (List.suffix_cons b _)) hpush
  exact turns_of_word hm (hthere.above ha.not_defn) .peek (hbelow'.trans (List.suffix_cons a _))
    (hdip.trans (turns_swap hm hs hthere hdoubled hmovable hbelow'))

/-- **The shufflers are what their names say.** On a normal stack with the shipped definitions
beneath two movable values, `swap` exchanges the two, `over` puts the lower one once more on top,
and `nip` leaves the upper one alone; beneath three, `rot` brings up the lowest and `unrot` puts the
uppermost beneath the others. To exchange twice, or to do one of the last two and then the other,
leaves the stack as it was. None of them takes off anything that lies deeper. -/
theorem shufflers_rearrange (hm : m.limit = none) (hs : m.host.Supplies embed)
    (hv : Shipped embed own rest) :
    (∀ a b : Expr ν τ, a.Movable → b.Movable → Normal m.host (a :: b :: rest) →
      let st := a :: b :: rest
      m.YieldsOver rest [word "swap"] st 6 (b :: a :: rest) ∧
        m.YieldsOver rest [word "over"] st 15 (b :: a :: b :: rest) ∧
        m.YieldsOver rest [word "nip"] st 7 (a :: rest) ∧
        m.YieldsOver rest [word "swap", word "swap"] st 12 st) ∧
    ∀ a b c : Expr ν τ, a.Movable → b.Movable → c.Movable → Normal m.host (a :: b :: c :: rest) →
      let st := a :: b :: c :: rest
      m.YieldsOver rest [word "rot"] st 7 (c :: a :: b :: rest) ∧
        m.YieldsOver rest [word "unrot"] st 7 (b :: c :: a :: rest) ∧
        m.YieldsOver rest [word "rot", word "unrot"] st 14 st ∧
        m.YieldsOver rest [word "unrot", word "rot"] st 14 st := by
  have hrest : rest <:+ rest := List.suffix_refl rest
  have hunder (es : List (Expr ν τ)) : rest <:+ es ++ rest := List.suffix_append es rest
  refine ⟨fun a b ha hb hn => ?_, fun a b c ha hb hc hn => ?_⟩
  · intro st
    have hmovable : ∀ e ∈ [a, b], e.Movable := by simp [ha, hb]
    have htwo : Normal m.host ([a, b] ++ rest) := hn
    have hexchange : [b, a] ⊆ [a, b] := by simp
    have hexchanged : Normal m.host ([b, a] ++ rest) := htwo.moved hmovable hexchange
    have hpush : Inert m.host rest a := (normal_cons.mp (normal_cons.mp hexchanged).2).1
    have hswap := turns_swap hm hs hv hn hmovable hrest
    have hback := turns_swap hm hs hv hexchanged (fun e he => hmovable e (hexchange he)) hrest
    exact ⟨hswap.yieldsOver hm rfl (hunder [b, a]),
      (turns_over hm hs hv htwo ha hb hrest).yieldsOver hm rfl (hunder [b, a, b]),
      (turns_nip hm hs hv hpush ha hb hrest).yieldsOver hm rfl (hunder [a]),
      (hswap.trans hback).yieldsOver hm rfl (hunder [a, b])⟩
  · intro st
    have hmovable : ∀ e ∈ [a, b, c], e.Movable := by simp [ha, hb, hc]
    have hthree : Normal m.host ([a, b, c] ++ rest) := hn
    have hup : [c, a, b] ⊆ [a, b, c] := by simp
    have hdown : [b, c, a] ⊆ [a, b, c] := by simp
    have hrot := turns_rot hm hs hv hn hmovable hrest
    have hunrot := turns_unrot hm hs hv hn hmovable hrest
    have hthere := turns_rot hm hs hv (hthree.moved hmovable hdown)
      (fun e he => hmovable e (hdown he)) hrest
    have hback := turns_unrot hm hs hv (hthree.moved hmovable hup)
      (fun e he => hmovable e (hup he)) hrest
    exact ⟨hrot.yieldsOver hm rfl (hunder [c, a, b]), hunrot.yieldsOver hm rfl (hunder [b, c, a]),
      (hunrot.trans hthere).yieldsOver hm rfl (hunder [a, b, c]),
      (hrot.trans hback).yieldsOver hm rfl (hunder [a, b, c])⟩

end Shufflers

/-- A word without a definition goes beneath a number and comes back, and a quotation is dropped. -/
theorem shufflers_rearrange_waiting :
    ∃ program made base,
      Program.assemble (fun _ => .error .missing) .shipped [] 3 = .ok program ∧
      ({} : Settings).machine.Yields program [] made (.ok base) ∧
      Shipped id (fun _ => ()) base ∧
      Normal Primitive.host (word "x" :: num 2 :: quot [word "croak"] :: base) ∧
      ({} : Settings).machine.YieldsOver (quot [word "croak"] :: base) [word "over"]
        (word "x" :: num 2 :: quot [word "croak"] :: base) 15
        (num 2 :: word "x" :: num 2 :: quot [word "croak"] :: base) ∧
      ({} : Settings).machine.YieldsOver base [word "rot"]
        (word "x" :: num 2 :: quot [word "croak"] :: base) 7
        (quot [word "croak"] :: word "x" :: num 2 :: base) := by
  obtain ⟨program, made, hprogram, hbase⟩ :=
    yields_standing (fun _ => .error .missing) (Nat.le_refl 3)
  have hsupplies : ({} : Settings).machine.host.Supplies (id : Primitive → Primitive) :=
    fun _ _ _ => rfl
  have hnormal : Normal Primitive.host (quot [word "croak"] :: standing) :=
    normal_cons.mpr ⟨trivial, normal_of_definitions isDefn_standing⟩
  have hunknown : Stack.lookup "x" (num 2 :: quot [word "croak"] :: standing) = none := by
    decide +kernel
  have hwaits : Normal Primitive.host (word "x" :: num 2 :: quot [word "croak"] :: standing) :=
    normal_cons.mpr ⟨inert_word_iff.mpr hunknown, normal_cons.mpr ⟨trivial, hnormal⟩⟩
  have hthere : Shipped id (fun _ => ()) (quot [word "croak"] :: standing) :=
    shipped_standing.above rfl
  obtain ⟨htwo, -⟩ :=
    shufflers_rearrange (m := ({} : Settings).machine) rfl hsupplies hthere
  obtain ⟨-, hthree⟩ :=
    shufflers_rearrange (m := ({} : Settings).machine) rfl hsupplies shipped_standing
  obtain ⟨-, hover, -⟩ := htwo (word "x") (num 2) (by decide) (by decide) hwaits
  obtain ⟨hrot, -⟩ := hthree (word "x") (num 2) (quot [word "croak"]) (by decide) (by decide)
    (by decide) hwaits
  exact ⟨program, made, standing, hprogram, hbase, shipped_standing, hwaits, hover, hrot⟩

end Prelude
end Leftward
