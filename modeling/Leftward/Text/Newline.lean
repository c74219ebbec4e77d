/-!
# Newlines

A file may end its lines with a line feed, a carriage return, or both in that order. `unify`
makes each of them one line feed, so that a text reads the same whichever it uses.
-/

namespace Leftward
namespace Newline

/-- Unify the newlines of a text, in front of which `done` has been written in reverse. -/
def unifyOnto (done : List Char) : List Char → List Char
  | [] => done.reverse
  | '\r' :: '\n' :: rest => unifyOnto ('\n' :: done) rest
  | '\r' :: rest => unifyOnto ('\n' :: done) rest
  | c :: rest => unifyOnto (c :: done) rest

/-- Every newline of the text as one line feed. -/
def unify (text : List Char) : List Char := unifyOnto [] text

/-- What is added to the front of what has been written stays in front of the rest. -/
theorem unifyOnto_append (done before text : List Char) :
    unifyOnto (done ++ before) text = before.reverse ++ unifyOnto done text := by
  fun_induction unifyOnto done text with
  | case1 done => rw [unifyOnto, List.reverse_append]
  | case2 done rest ih => rw [unifyOnto, ← ih, List.cons_append]
  | case3 done rest hpair ih =>
    rw [unifyOnto, ← ih, List.cons_append]
    exact hpair
  | case4 done c rest hpair hreturn ih =>
    rw [unifyOnto, ← ih, List.cons_append]
    · exact hpair
    · exact hreturn

/-- **What has been written stays in front of the rest.** -/
theorem unifyOnto_eq (done text : List Char) : unifyOnto done text = done.reverse ++ unify text :=
  unifyOnto_append [] done text

theorem unify_pair (rest : List Char) : unify ('\r' :: '\n' :: rest) = '\n' :: unify rest :=
  unifyOnto_eq ['\n'] rest

/-- A character that does not begin a pair becomes a line feed if it is a carriage return. -/
theorem unify_cons {c : Char} {rest : List Char} (h : c = '\r' → ∀ more, rest ≠ '\n' :: more) :
    unify (c :: rest) = (if c = '\r' then '\n' else c) :: unify rest := by
  by_cases hreturn : c = '\r'
  · subst hreturn
    rw [unify, unifyOnto, unifyOnto_eq, if_pos rfl]
    · rfl
    · exact h rfl
  · rw [unify, unifyOnto, unifyOnto_eq, if_neg hreturn]
    · rfl
    · exact fun _ hc => absurd hc hreturn
    · exact hreturn

end Newline
end Leftward
