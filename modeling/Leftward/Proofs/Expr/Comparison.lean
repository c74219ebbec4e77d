import Leftward.Primitive.Action
import Leftward.Proofs.Expr.Parts

/-!
# Comparison, as a recursion

`compareWork` keeps a list of what is left to compare. What it decides is said without that list:
two quotations compare item by item and then by their lengths, two pairs member by member, and all
else by kind and payload, natives and definitions as the asker has it (`compare`).

The answer can also be read off a list. A walk through both expressions, depth first and from the
left, comes to places where something is decided, the lengths of two quotations once their items are
behind it (`verdicts`). **The first place that decides, decides** (`Verdict.first`), whether it
finds a difference in an item, a difference in length or something that is not compared, and
whatever comes after it.
-/

namespace Leftward

/-! ## Verdicts -/

/-- What a comparison comes to: whether two things agree, or that they are not compared. -/
abbrev Verdict := Except Refusal Bool

namespace Verdict

/-- Whether the verdict ends a comparison. Only agreement leaves it open. -/
def decisive : Verdict → Bool
  | .ok true => false
  | _ => true

/-- The first verdict, and the second one if the first leaves it open. -/
def orElse : Verdict → Verdict → Verdict
  | .ok true, next => next
  | verdict, _ => verdict

/-- The first verdict that is decisive, and agreement if none is. -/
def first (verdicts : List Verdict) : Verdict := (verdicts.find? decisive).getD (.ok true)

@[simp] theorem orElse_agreed (v : Verdict) : orElse (.ok true) v = v := rfl

theorem orElse_of_decisive {v : Verdict} (h : decisive v = true) (w : Verdict) :
    orElse v w = v := by
  unfold orElse
  split
  · cases h
  · rfl

theorem decisive_of_ne {v : Verdict} (h : v ≠ .ok true) : decisive v = true := by
  unfold decisive
  split
  · exact absurd rfl h
  · rfl

theorem eq_agreed_of_not_decisive {v : Verdict} (h : ¬ decisive v = true) : v = .ok true := by
  unfold decisive at h
  split at h
  · rfl
  · exact absurd rfl h

@[simp] theorem first_nil : first [] = .ok true := rfl

@[simp] theorem first_cons (v : Verdict) (vs : List Verdict) :
    first (v :: vs) = orElse v (first vs) := by
  by_cases h : decisive v = true
  · rw [orElse_of_decisive h, first, List.find?_cons_of_pos h]
    rfl
  · rw [eq_agreed_of_not_decisive h]
    rfl

theorem orElse_assoc (u v w : Verdict) : orElse (orElse u v) w = orElse u (orElse v w) := by
  by_cases h : decisive u = true
  · rw [orElse_of_decisive h, orElse_of_decisive h, orElse_of_decisive h]
  · rw [eq_agreed_of_not_decisive h, orElse_agreed, orElse_agreed]

@[simp] theorem orElse_open (v : Verdict) : orElse v (.ok true) = v := by
  by_cases h : decisive v = true
  · exact orElse_of_decisive h _
  · rw [eq_agreed_of_not_decisive h, orElse_agreed]

theorem first_append (vs ws : List Verdict) : first (vs ++ ws) = orElse (first vs) (first ws) := by
  induction vs with
  | nil => rfl
  | cons v vs ih => rw [List.cons_append, first_cons, first_cons, ih, orElse_assoc]

theorem both_of_orElse {v w : Verdict} (h : orElse v w = .ok true) :
    v = .ok true ∧ w = .ok true := by
  unfold orElse at h
  split at h
  · exact ⟨rfl, h⟩
  · rename_i hne
    exact absurd h hne

theorem exists_orElse {v w : Verdict} (hv : ∃ verdict, v = .ok verdict)
    (hw : ∃ verdict, w = .ok verdict) : ∃ verdict, orElse v w = .ok verdict := by
  by_cases h : decisive v = true
  · rwa [orElse_of_decisive h]
  · rwa [eq_agreed_of_not_decisive h]

end Verdict

/-- How natives compare with natives, and definitions with definitions, by their tags. -/
structure Judge (τ : Type) where
  functions : τ → τ → Verdict
  definitions : τ → τ → Verdict

/-- The language does not compare them. -/
def Judge.language {τ : Type} : Judge τ :=
  ⟨fun _ _ => .error .functions, fun _ _ => .error .definitions⟩

/-- A host tells them apart as objects: two of them are equal if they are one. -/
def Judge.identity {τ : Type} [DecidableEq τ] : Judge τ :=
  ⟨fun s t => .ok (s = t), fun s t => .ok (s = t)⟩

namespace Expr

variable {ν τ : Type}

/-! ## The recursion -/

/-- How two expressions compare of which not both are quotations and not both are pairs. -/
def compareLeaves (judge : Judge τ) : Expr ν τ → Expr ν τ → Verdict
  | native _ s, native _ t => judge.functions s t
  | defn _ _ s, defn _ _ t => judge.definitions s t
  | word a, word b => .ok (a = b)
  | num a, num b => .ok (a = b)
  | bool a, bool b => .ok (a = b)
  | chr a, chr b => .ok (a = b)
  | comment a, comment b => .ok (a = b)
  | _, _ => .ok false

mutual

/-- How two expressions compare. -/
def compare (judge : Judge τ) : Expr ν τ → Expr ν τ → Verdict
  | quot xs, quot ys => compareAll judge xs ys
  | pair a b, pair c d => (compare judge a c).orElse (compare judge b d)
  | x, y => compareLeaves judge x y

/-- How the items of two quotations compare: one by one from the left, and when they have agreed as
far as both go, by whether both have come to their end. -/
def compareAll (judge : Judge τ) : List (Expr ν τ) → List (Expr ν τ) → Verdict
  | x :: xs, y :: ys => (compare judge x y).orElse (compareAll judge xs ys)
  | [], [] => .ok true
  | _, _ => .ok false

end

mutual

/-- What a walk through two expressions comes to decide, in order. -/
def verdicts (judge : Judge τ) : Expr ν τ → Expr ν τ → List Verdict
  | quot xs, quot ys => verdictsAll judge xs ys ++ [.ok (xs.length = ys.length)]
  | pair a b, pair c d => verdicts judge a c ++ verdicts judge b d
  | x, y => [compareLeaves judge x y]

/-- What a walk through the items of two quotations comes to decide, as far as both go. -/
def verdictsAll (judge : Judge τ) : List (Expr ν τ) → List (Expr ν τ) → List Verdict
  | x :: xs, y :: ys => verdicts judge x y ++ verdictsAll judge xs ys
  | _, _ => []

end

/-! ## Three ways to the same answer -/

section Walk

variable {judge : Judge τ}

theorem compareAll_eq_first {xs : List (Expr ν τ)}
    (h : ∀ x ∈ xs, ∀ y, compare judge x y = Verdict.first (verdicts judge x y))
    (ys : List (Expr ν τ)) :
    compareAll judge xs ys =
      Verdict.orElse (Verdict.first (verdictsAll judge xs ys)) (.ok (xs.length = ys.length)) := by
  induction xs generalizing ys with
  | nil => cases ys <;> rfl
  | cons x xs ih =>
    cases ys with
    | nil => rfl
    | cons y ys =>
      have hx := h x List.mem_cons_self y
      have hxs := ih (fun e he => h e (List.mem_cons_of_mem x he)) ys
      have hlength : (.ok (xs.length = ys.length) : Verdict) =
          .ok ((x :: xs).length = (y :: ys).length) := by simp
      rw [compareAll, verdictsAll, hx, hxs, Verdict.first_append, Verdict.orElse_assoc, hlength]

/-- **The recursion gives the verdict of the first place that decides.** -/
theorem compare_eq_first (x y : Expr ν τ) :
    compare judge x y = Verdict.first (verdicts judge x y) := by
  induction x using nested_induction generalizing y with
  | quotation xs ih =>
    cases y with
    | quot ys =>
      rw [compare, verdicts, Verdict.first_append, compareAll_eq_first ih, Verdict.first_cons,
        Verdict.first_nil, Verdict.orElse_open]
    | _ => simp [compare, verdicts]
  | pair a b iha ihb =>
    cases y with
    | pair c d => rw [compare, verdicts, Verdict.first_append, iha, ihb]
    | _ => simp [compare, verdicts]
  | leaf x hleaf =>
    cases x with
    | quot _ | pair _ _ => cases hleaf
    | _ => simp [compare, verdicts]

/-- What a walk comes to decide in a task. -/
def Task.verdicts (judge : Judge τ) : Task ν τ → List Verdict
  | .exprs x y => Expr.verdicts judge x y
  | .lengths m n => [.ok (m = n)]

theorem verdicts_zip (xs ys : List (Expr ν τ)) :
    (Task.zip xs ys).flatMap (Task.verdicts judge) = verdictsAll judge xs ys := by
  induction xs generalizing ys with
  | nil => cases ys <;> rfl
  | cons x xs ih =>
    cases ys with
    | nil => rfl
    | cons y ys => rw [Task.zip, List.flatMap_cons, ih, verdictsAll, Task.verdicts]

/-- The walk comes to one decision where neither quotations nor pairs meet. -/
theorem verdicts_leaves {x y : Expr ν τ} (hquot : ∀ xs ys, x = quot xs → y = quot ys → False)
    (hpair : ∀ a b c d, x = pair a b → y = pair c d → False) :
    verdicts judge x y = [compareLeaves judge x y] := by
  unfold verdicts
  split
  · exact (hquot _ _ rfl rfl).elim
  · exact (hpair _ _ _ _ rfl rfl).elim
  · rfl

/-- **The list of what is left to do holds what the walk has still to come to**, in its order. -/
theorem compareWork_eq_first {asked : Expr ν τ → Expr ν τ → Verdict}
    (hasked : ∀ x y, agree asked x y = compareLeaves judge x y) (work : List (Task ν τ)) :
    compareWork asked work = Verdict.first (work.flatMap (Task.verdicts judge)) := by
  fun_induction compareWork asked work with
  | case1 => rfl
  | case2 m work ih => simpa [Task.verdicts] using ih
  | case3 m n work hne => simp [Task.verdicts, hne, Verdict.orElse]
  | case4 xs ys work ih =>
    rw [ih, List.flatMap_append, verdicts_zip, List.flatMap_cons, List.flatMap_cons,
      ← List.append_assoc]
    rfl
  | case5 a b c d work ih =>
    rw [ih, List.flatMap_cons, List.flatMap_cons, List.flatMap_cons, ← List.append_assoc]
    rfl
  | case6 x y work hquot hpair hagree ih =>
    rw [hasked] at hagree
    rw [ih, List.flatMap_cons, Task.verdicts, verdicts_leaves hquot hpair, hagree]
    rfl
  | case7 x y work hquot hpair hagree =>
    rw [hasked] at hagree ⊢
    have hdecisive : Verdict.decisive (compareLeaves judge x y) = true :=
      Verdict.decisive_of_ne hagree
    rw [List.flatMap_cons, Task.verdicts, verdicts_leaves hquot hpair, List.singleton_append,
      Verdict.first_cons, Verdict.orElse_of_decisive hdecisive]

end Walk

/-! ## Who asks -/

theorem agree_refuse (x y : Expr ν τ) : agree refuse x y = compareLeaves .language x y := by
  cases x <;> cases y <;> rfl

theorem equals_eq_first (x y : Expr ν τ) :
    x.equals y = Verdict.first (verdicts .language x y) := by
  rw [equals, compareWork_eq_first agree_refuse, List.flatMap_singleton, Task.verdicts]

section Identity

variable [DecidableEq τ]

theorem agree_identical (x y : Expr ν τ) : agree identical x y = compareLeaves .identity x y := by
  cases x <;> cases y <;> rfl

/-- What a host compares it never refuses to compare. -/
theorem exists_compareLeaves_identity (x y : Expr ν τ) :
    ∃ verdict, compareLeaves .identity x y = .ok verdict := by
  cases x <;> cases y <;> exact ⟨_, rfl⟩

theorem exists_compareAll_identity {xs : List (Expr ν τ)}
    (h : ∀ x ∈ xs, ∀ y, ∃ verdict, compare .identity x y = .ok verdict) (ys : List (Expr ν τ)) :
    ∃ verdict, compareAll .identity xs ys = .ok verdict := by
  induction xs generalizing ys with
  | nil => cases ys <;> exact ⟨_, rfl⟩
  | cons x xs ih =>
    cases ys with
    | nil => exact ⟨_, rfl⟩
    | cons y ys =>
      have hxs := ih (fun e he => h e (List.mem_cons_of_mem x he)) ys
      exact Verdict.exists_orElse (h x List.mem_cons_self y) hxs

theorem exists_compare_identity (x y : Expr ν τ) :
    ∃ verdict, compare .identity x y = .ok verdict := by
  induction x using nested_induction generalizing y with
  | quotation xs ih =>
    cases y with
    | quot ys => exact exists_compareAll_identity ih ys
    | _ => exact ⟨_, rfl⟩
  | pair a b iha ihb =>
    cases y with
    | pair c d => exact Verdict.exists_orElse (iha c) (ihb d)
    | _ => exact ⟨_, rfl⟩
  | leaf x hleaf =>
    cases x with
    | quot _ | pair _ _ => cases hleaf
    | _ => exact exists_compareLeaves_identity _ y

theorem compare_identity_eq_same (x y : Expr ν τ) : compare .identity x y = .ok (x.same y) := by
  obtain ⟨verdict, hverdict⟩ := exists_compare_identity x y
  have hwork : compareWork identical [.exprs x y] = compare .identity x y := by
    rw [compareWork_eq_first agree_identical, List.flatMap_singleton, Task.verdicts,
      compare_eq_first]
  rw [same, hwork, hverdict]

end Identity

/-! ## Agreement is identity

The language says that two expressions agree of none that are not one and the same, since what it
cannot look into it refuses. -/

theorem eq_of_compareLeaves {x y : Expr ν τ} (h : compareLeaves .language x y = .ok true) :
    x = y := by
  cases x <;> cases y <;> simp_all [compareLeaves, Judge.language]

theorem eq_of_compareAll {xs : List (Expr ν τ)}
    (hitems : ∀ x ∈ xs, ∀ y, compare .language x y = .ok true → x = y) {ys : List (Expr ν τ)}
    (h : compareAll .language xs ys = .ok true) : xs = ys := by
  induction xs generalizing ys with
  | nil =>
    cases ys with
    | nil => rfl
    | cons y ys => cases h
  | cons x xs ih =>
    cases ys with
    | nil => cases h
    | cons y ys =>
      rw [compareAll] at h
      obtain ⟨hx, hxs⟩ := Verdict.both_of_orElse h
      have hrest := ih (fun e he => hitems e (List.mem_cons_of_mem x he)) hxs
      rw [hitems x List.mem_cons_self y hx, hrest]

theorem eq_of_compare {x y : Expr ν τ} (h : compare .language x y = .ok true) : x = y := by
  induction x using nested_induction generalizing y with
  | quotation xs ih =>
    cases y with
    | quot ys => exact congrArg quot (eq_of_compareAll (fun x hx y => ih x hx) h)
    | _ => cases h
  | pair a b iha ihb =>
    cases y with
    | pair c d =>
      rw [compare] at h
      obtain ⟨hfirst, hsecond⟩ := Verdict.both_of_orElse h
      rw [iha hfirst, ihb hsecond]
    | _ => cases h
  | leaf x hleaf =>
    cases x with
    | quot _ | pair _ _ => cases hleaf
    | _ => exact eq_of_compareLeaves h

end Expr

/-- **The walk decides as the recursion does**, and so the first place that decides has the verdict.
That holds of the language's equality, which refuses natives and definitions where two of a kind
meet and is what `=` answers with, and of a host's, which goes by identity there and never
refuses. -/
theorem comparison_first_decides {ν τ : Type} (x y : Expr ν τ) :
    x.equals y = Expr.compare .language x y ∧
    x.equals y = Verdict.first (Expr.verdicts .language x y) ∧
    (∀ tag rest, Primitive.equal.act tag (x :: y :: rest) =
      match Expr.compare .language x y with
      | .ok verdict => .applied [.bool verdict] rest
      | .error refusal => .failed (Cause.incomparable refusal).failure) ∧
    (Cause.incomparable .functions : Cause ν τ).message = some "Cannot compare functions" ∧
    (Cause.incomparable .definitions : Cause ν τ).message = some "Cannot compare definitions" ∧
    (∀ refusal, (Cause.incomparable refusal : Cause ν τ).category = .incomparableValues) ∧
    ∀ [DecidableEq τ],
      .ok (x.same y) = Expr.compare .identity x y ∧
      .ok (x.same y) = Verdict.first (Expr.verdicts .identity x y) := by
  have hfirst := Expr.equals_eq_first x y
  have hcompare : x.equals y = Expr.compare .language x y := by
    rw [hfirst, Expr.compare_eq_first]
  refine ⟨hcompare, hfirst, fun tag rest => ?_, rfl, rfl, fun refusal => rfl, ?_⟩
  · rw [← hcompare]
    show Action.equal (x :: y :: rest) = _
    rw [Action.equal]
    cases x.equals y <;> rfl
  · intro _
    have hsame := Expr.compare_identity_eq_same x y
    exact ⟨hsame.symm, by rw [← hsame, Expr.compare_eq_first]⟩

-- Two functions meet before one quotation comes to its end, and after two numbers have differed.
example : Expr.compare .language (.quot [.native () (), .num 1] : Expr Unit Unit)
    (.quot [.native () ()]) = .error .functions := rfl

example : Expr.compare .language (.quot [.num 1, .native () ()] : Expr Unit Unit)
    (.quot [.num 2, .native () ()]) = .ok false := rfl

end Leftward
