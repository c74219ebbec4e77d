import Leftward.Expr

/-!
# Comparison of expressions

Quotations are compared item by item from the left, pairs first member first, depth first; the
first position that decides, decides. **Lengths are compared after the common front**, so a
difference in an item is found before a difference in length.

What two natives or two definitions are to each other depends on who asks. The language refuses
to compare them (`equals`); a host that knows objects takes two of them for equal if they carry
one tag (`same`). Both are one walk, `compareWork`, with a different judge.

The walk keeps a list of what is left to compare instead of calling itself for every level, so
depth costs it nothing.
-/

namespace Leftward

/-- What the language refuses to compare. -/
inductive Refusal where
  | functions
  | definitions
  deriving DecidableEq, Repr

namespace Expr

variable {ν τ : Type}

/-- One thing left to compare. -/
inductive Task (ν τ : Type) where
  -- Two expressions.
  | exprs (x y : Expr ν τ)
  -- The lengths of two quotations, due once their items have been compared.
  | lengths (m n : Nat)

/-- The items of two quotations as tasks, as far as both go. -/
def Task.zip : List (Expr ν τ) → List (Expr ν τ) → List (Task ν τ)
  | x :: xs, y :: ys => .exprs x y :: Task.zip xs ys
  | _, _ => []

/-- How much work a task is, by its left side. -/
def Task.weight : Task ν τ → Nat
  | .exprs x _ => x.weight
  | .lengths _ _ => 1

/-- How much work a list of tasks is. -/
def Task.total : List (Task ν τ) → Nat
  | [] => 0
  | task :: work => task.weight + Task.total work

theorem Task.total_append (work more : List (Task ν τ)) :
    Task.total (work ++ more) = Task.total work + Task.total more := by
  induction work with
  | nil => simp [Task.total]
  | cons task work ih => simp [Task.total, ih, Nat.add_assoc]

theorem Task.total_zip_le (xs ys : List (Expr ν τ)) :
    Task.total (Task.zip xs ys) ≤ weightAll xs := by
  induction xs generalizing ys with
  | nil => simp [Task.zip, Task.total]
  | cons x xs ih =>
    cases ys with
    | nil => simp [Task.zip, Task.total]
    | cons y ys =>
      have := ih ys
      simp only [Task.zip, Task.total, Task.weight, weightAll]
      omega

/-- Whether two expressions that are not both quotations and not both pairs agree: natives and
definitions are left to the judge, all else agrees by kind and payload. -/
def agree (judge : Expr ν τ → Expr ν τ → Except Refusal Bool) (x y : Expr ν τ) :
    Except Refusal Bool :=
  match x, y with
  | native _ _, _ | defn _ _ _, _ | _, native _ _ | _, defn _ _ _ => judge x y
  | word a, word b => .ok (a = b)
  | num a, num b => .ok (a = b)
  | bool a, bool b => .ok (a = b)
  | chr a, chr b => .ok (a = b)
  | comment a, comment b => .ok (a = b)
  | _, _ => .ok false

/-- Compare what is left, in order, up to the first difference or refusal. -/
def compareWork (judge : Expr ν τ → Expr ν τ → Except Refusal Bool) :
    List (Task ν τ) → Except Refusal Bool
  | [] => .ok true
  | .lengths m n :: work => if m = n then compareWork judge work else .ok false
  | .exprs (quot xs) (quot ys) :: work =>
    compareWork judge (Task.zip xs ys ++ .lengths xs.length ys.length :: work)
  | .exprs (pair a b) (pair c d) :: work =>
    compareWork judge (.exprs a c :: .exprs b d :: work)
  | .exprs x y :: work =>
    match agree judge x y with
    | .ok true => compareWork judge work
    | verdict => verdict
termination_by work => Task.total work
decreasing_by
  all_goals simp only [Task.total, Task.total_append, Task.weight, weight]
  · omega
  · have := Task.total_zip_le xs ys
    omega
  · omega
  · have := x.weight_pos
    omega

/-- The language's judge: two functions or two definitions are not compared, and neither is ever
equal to anything of another kind. -/
def refuse : Expr ν τ → Expr ν τ → Except Refusal Bool
  | native _ _, native _ _ => .error .functions
  | defn _ _ _, defn _ _ _ => .error .definitions
  | _, _ => .ok false

/-- Equality of the language. -/
def equals (x y : Expr ν τ) : Except Refusal Bool := compareWork refuse [.exprs x y]

variable [DecidableEq τ]

/-- The judge that goes by identity. -/
def identical : Expr ν τ → Expr ν τ → Except Refusal Bool
  | native _ s, native _ t => .ok (s = t)
  | defn _ _ s, defn _ _ t => .ok (s = t)
  | _, _ => .ok false

/-- Equality with natives and definitions told apart by their tags. The judge never refuses. -/
def same (x y : Expr ν τ) : Bool :=
  match compareWork identical [.exprs x y] with
  | .ok verdict => verdict
  | .error _ => false

end Expr

namespace Stack

variable {ν τ : Type} [DecidableEq τ]

/-- Two stacks are the same if they are as high and hold the same expressions in order. -/
def same : Stack ν τ → Stack ν τ → Bool
  | [], [] => true
  | x :: xs, y :: ys => x.same y && Stack.same xs ys
  | _, _ => false

end Stack
end Leftward
