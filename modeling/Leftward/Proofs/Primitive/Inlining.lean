import Leftward.Proofs.Primitive.Application

/-!
# Inlining — a call and its body in its place

A word stands for the body of its nearest definition, and `apply` for the items of the quotation
that it is called on. **Written in the middle of a program, either may be replaced by the code it
stands for** (`calls_are_inlined`): both programs go on as that code, with all that is on its left,
on the stack that the code on its right has left. Whatever comes of it, the word is one step behind
its body and the call of `apply` two steps behind the items.

The definition of the word is looked up in the stack that is there when the word is read. What the
body then does, to that definition or any other, is the same in both programs, since from there on
they are one. To say so of `apply` nothing need be known of the code on the right: **if it does not
end in a stack, what is on its left is never read** (`yields_append_iff_of_not_ok`).
-/

namespace Leftward
namespace Machine

open Leftward.Expr

variable {ν τ : Type} {m : Machine ν τ} {base between onto : Stack ν τ}
  {post script call body called : List (Expr ν τ)} {k : Nat}

/-! ## Where the code on the right ends in a stack -/

/-- What ends in a stack leaves it to a call, and the call leaves it to its body. -/
theorem goesOnAs_of_yields_of_reaches (hm : m.limit = none)
    (h : m.Yields post base k (.ok between))
    (hcall : Reaches m.host script call.reverse between body.reverse onto)
    (pre : List (Expr ν τ)) :
    m.GoesOnAs (pre ++ call ++ post) base ((m.reading k (.start post base)).map cover ++ script)
      (pre ++ body) onto := by
  have hleft (made : Nat) := (hcall.before pre.reverse).later made
  rw [← List.reverse_append, ← List.reverse_append] at hleft
  have hpost := goesOnAs_of_yields hm h (pre ++ call)
  exact hpost.trans (goesOnAs_of_reaches (m := m.later _) hm (hleft _))

/-- A word goes on as its body, in the middle of a program. -/
theorem word_goesOn (hm : m.limit = none) (h : m.Yields post base k (.ok between)) {name : String}
    (hbody : Stack.lookup name between = some body) (pre : List (Expr ν τ)) :
    m.GoesOnAs (pre ++ [word name] ++ post) base
      ((m.reading k (.start post base)).map cover ++ [word name]) (pre ++ body) between := by
  have hexpands : Reaches m.host [word name] [word name] between (body.reverse ++ []) between :=
    .expand hbody
  rw [List.append_nil] at hexpands
  exact goesOnAs_of_yields_of_reaches hm h hexpands pre

/-- What goes on as a body does, behind the code on the right, comes to what the body comes to in
its place. -/
theorem yields_inlined_iff (hm : m.limit = none) (hp : m.host.Pure)
    (h : m.Yields post base k (.ok between)) {pre : List (Expr ν τ)}
    (hcalled : m.GoesOnAs called base ((m.reading k (.start post base)).map cover ++ script)
      (pre ++ body) between) (n : Nat) (result : Result ν τ) :
    m.Yields called base n result ↔
      ∃ j, n = script.length + j ∧ m.Yields (pre ++ body ++ post) base j result := by
  refine hcalled.behind_of_pure hm hp (goesOnAs_of_yields hm h (pre ++ body)) ?_ n result
  rw [List.length_append, Nat.add_comm]

/-! ## Where it does not -/

/-- What is on the left of code that ends in no stack is not read. -/
theorem yields_append_iff_of_not_ok (hm : m.limit = none)
    (h : ∀ k between, ¬ m.Yields post base k (.ok between)) (pre : List (Expr ν τ)) (n : Nat)
    (result : Result ν τ) : m.Yields (pre ++ post) base n result ↔ m.Yields post base n result := by
  constructor
  · intro hwhole
    rcases hwhole.split hm with ⟨failure, rfl, hfails⟩ | ⟨a, _, between, -, hends, -⟩
    · exact hfails
    · exact absurd hends (h a between)
  · intro hpost
    cases result with
    | ok final => exact absurd hpost (h n final)
    | error failure => exact hpost.append_error pre

/-- **A call may be replaced by its body.** Between any code on the left and any on the right:

A word, whose nearest definition on the stack that the right leaves has some body, goes on as the
body does that is written in its place, a step later. A call of `apply` on a quotation goes on as
its items do that are written in its place, two steps later; and if the right leaves no stack, both
come to what the right comes to. So a call of `apply` and the items come to the same, whatever is on
the right.

That both begin at different steps is no difference where natives do not look at their tags. -/
theorem calls_are_inlined (hm : m.limit = none) (pre post : List (Expr ν τ)) (base : Stack ν τ) :
    (∀ name body k between, m.Yields post base k (.ok between) →
      Stack.lookup name between = some body →
      let script := (m.reading k (.start post base)).map cover
      m.GoesOnAs (pre ++ [word name] ++ post) base (script ++ [word name]) (pre ++ body) between ∧
      m.GoesOnAs (pre ++ body ++ post) base script (pre ++ body) between ∧
      (m.host.Pure → ∀ n result, m.Yields (pre ++ [word name] ++ post) base n result ↔
        ∃ j, n = 1 + j ∧ m.Yields (pre ++ body ++ post) base j result)) ∧
    ∀ (embed : Primitive → ν) (own : τ) (body : List (Expr ν τ)), m.host.Supplies embed →
      let call := [native (embed .apply) own, quot body]
      (∀ k between, m.Yields post base k (.ok between) →
        let script := (m.reading k (.start post base)).map cover
        m.GoesOnAs (pre ++ call ++ post) base (script ++ [quot [], native (embed .apply) own])
          (pre ++ body) between ∧
        m.GoesOnAs (pre ++ body ++ post) base script (pre ++ body) between ∧
        (m.host.Pure → ∀ n result, m.Yields (pre ++ call ++ post) base n result ↔
          ∃ j, n = 2 + j ∧ m.Yields (pre ++ body ++ post) base j result)) ∧
      ((∀ k between, ¬ m.Yields post base k (.ok between)) → ∀ n result,
        (m.Yields (pre ++ call ++ post) base n result ↔ m.Yields post base n result) ∧
        (m.Yields (pre ++ body ++ post) base n result ↔ m.Yields post base n result)) ∧
      (m.host.Pure → ∀ result, (∃ n, m.Yields (pre ++ call ++ post) base n result) ↔
        ∃ n, m.Yields (pre ++ body ++ post) base n result) := by
  constructor
  · intro name body k between h hbody script
    have hword := word_goesOn hm h hbody pre
    exact ⟨hword, goesOnAs_of_yields hm h (pre ++ body),
      fun hpure n result => yields_inlined_iff hm hpure h hword n result⟩
  · intro embed own body hs call
    have happlied {k : Nat} {between : Stack ν τ} (h : m.Yields post base k (.ok between)) :
        m.GoesOnAs (pre ++ call ++ post) base
          ((m.reading k (.start post base)).map cover ++ [quot [], native (embed .apply) own])
          (pre ++ body) between :=
      goesOnAs_of_yields_of_reaches hm h (reaches_apply hs own body between) pre
    refine ⟨fun k between h => ⟨happlied h, goesOnAs_of_yields hm h (pre ++ body),
        fun hpure n result => yields_inlined_iff hm hpure h (happlied h) n result⟩,
      fun h n result => ⟨yields_append_iff_of_not_ok hm h _ n result,
        yields_append_iff_of_not_ok hm h _ n result⟩, fun hpure result => ?_⟩
    by_cases h : ∃ k between, m.Yields post base k (.ok between)
    · obtain ⟨k, between, h⟩ := h
      simp only [yields_inlined_iff hm hpure h (happlied h)]
      constructor
      · rintro ⟨_, j, -, hj⟩
        exact ⟨j, hj⟩
      · rintro ⟨j, hj⟩
        exact ⟨_, j, rfl, hj⟩
    · have hnone : ∀ k between, ¬ m.Yields post base k (.ok between) := fun k between hk =>
        h ⟨k, between, hk⟩
      simp only [yields_append_iff_of_not_ok hm hnone]

/-- A word takes its own definition away and then stands for itself, and a quotation fails. -/
theorem calls_are_inlined_recursive :
    (⟨Primitive.host, none, false⟩ : Machine Primitive Unit).host.Pure ∧
      Primitive.host.Supplies (id : Primitive → Primitive) ∧
      (⟨Primitive.host, none, false⟩ : Machine Primitive Unit).Yields
        ([native .dup ()] ++ [word "less"] ++
          [num 1, defn "less" [word "less", comment "one value", native .drop ()] ()]) [] 12
        (.ok [word "less", word "less"]) ∧
      ∃ k failure, (⟨Primitive.host, none, false⟩ : Machine Primitive Unit).Yields
        ([native .dup ()] ++ [native .apply (), quot [native .croak (), quot [chr 'n', chr 'o']]] ++
          [num 1]) [] k (.error failure) := by
  have hpure : (⟨Primitive.host, none, false⟩ : Machine Primitive Unit).host.Pure :=
    fun _ _ _ _ => rfl
  have hsupplies : Primitive.host.Supplies (id : Primitive → Primitive) := fun _ _ _ => rfl
  obtain ⟨hword, -⟩ := calls_are_inlined (m := ⟨Primitive.host, none, false⟩) rfl [native .dup ()]
    [num 1, defn "less" [word "less", comment "one value", native .drop ()] ()] []
  obtain ⟨-, happly⟩ := calls_are_inlined (m := ⟨Primitive.host, none, false⟩) rfl
    [native .dup ()] [num 1] []
  obtain ⟨-, -, hless⟩ := hword "less" _ 2 _ ⟨3, rfl, rfl⟩ rfl
  obtain ⟨hcroaks, -⟩ := happly id () [native .croak (), quot [chr 'n', chr 'o']] hsupplies
  obtain ⟨-, -, hfails⟩ := hcroaks 1 [num 1] ⟨2, rfl, rfl⟩
  exact ⟨hpure, hsupplies, (hless hpure _ _).mpr ⟨11, rfl, 12, rfl, rfl⟩, _, _,
    (hfails hpure _ _).mpr ⟨_, rfl, 10, rfl, rfl⟩⟩

end Machine
end Leftward
