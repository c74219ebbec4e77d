import Leftward.Proofs.Prelude.Quotations

/-!
# `sum`

The word goes through a quotation as `reverse` does, but it does not keep the items quoted: **each
number is put on the sum of those behind it by reading the quotation that holds it**, and then the
addition is read. It could wait for its numbers and does not, since two numbers are what it finds,
whatever lies beneath them: numbers, or other additions that wait. So the script has one number
after each addition, the sum so far (`sum_reads`).
-/

namespace Leftward
namespace Prelude

open Leftward.Expr

variable {ν τ : Type}

section Script

variable (embed : Primitive → ν) (own : Primitive → τ)

/-- The script of `sum` on a quotation of the numbers. -/
def sumScript : List Int → List (Expr ν τ)
  | [] => walkScript embed own .sum true ++ (called embed own .drop ++ [num 0])
  | x :: xs =>
    walkScript embed own .sum false ++ (headScript embed own ++ (quot [] ::
      (called embed own .dip ++ (sumScript xs ++ (quot [] :: (called embed own .apply ++ (num x ::
        (called embed own .add ++ [num (x + xs.foldr (· + ·) 0)]))))))))

end Script

variable {embed : Primitive → ν} {own : Primitive → τ} {host : Host ν τ} {values : Stack ν τ}

/-- **`sum` leaves the sum.** -/
theorem sum_reads (hs : host.Supplies embed) (hv : Shipped embed own values) (xs : List Int)
    (rest : List (Expr ν τ)) :
    Reaches host (sumScript embed own xs) (word "sum" :: rest) (quot (xs.map num) :: values)
      rest (num (xs.foldr (· + ·) 0) :: values) := by
  -- The word is called again on the rest of the numbers, over the same stack, with the first one
  -- saved in front of what is pending.
  induction xs generalizing rest with
  | nil =>
    have hdrop (tag : τ) : Primitive.drop.act tag (quot [] :: values) = .applied [] values := rfl
    exact (walk (w := .sum) hs hv rfl [] rest).trans
      ((call hs (hv.above rfl) hdrop _).trans (Reaches.pushNum 0))
  | cons x xs ih =>
    have hdip (tag : τ) :
        Primitive.dip.act tag (quot [word "sum"] :: quot [num x] :: quot (xs.map num) :: values) =
          .applied [quot [num x], word "sum"] (quot (xs.map num) :: values) := rfl
    have happly (tag : τ) :
        Primitive.apply.act tag (quot [num x] :: num (xs.foldr (· + ·) 0) :: values) =
          .applied [num x] (num (xs.foldr (· + ·) 0) :: values) := rfl
    have hadd (tag : τ) :
        Primitive.add.act tag (num x :: num (xs.foldr (· + ·) 0) :: values) =
          .applied [num (x + xs.foldr (· + ·) 0)] values := rfl
    have hsplit : Shipped embed own (quot [num x] :: quot (xs.map num) :: values) :=
      Shipped.above (hv.above rfl) rfl
    have hsummed : Shipped embed own (num (xs.foldr (· + ·) 0) :: values) := hv.above rfl
    have hhead := head hs hv (num x) (xs.map num)
      (quot [word "sum"] :: word "dip" :: word "apply" :: word "+" :: rest)
    have hsum := ih (quot [num x] :: word "apply" :: word "+" :: rest)
    exact (walk (w := .sum) hs hv rfl (num x :: xs.map num) rest).trans (hhead.trans
      ((Reaches.pushQuot [word "sum"]).trans ((call hs (hsplit.above rfl) hdip _).trans
        (hsum.trans ((Reaches.pushQuot [num x]).trans
          ((call hs (hsummed.above rfl) happly _).trans ((Reaches.pushNum x).trans
            ((call hs (hsummed.above rfl) hadd rest).trans (Reaches.pushNum _)))))))))

/-- **`sum` adds up the numbers of any quotation of numbers**, on top of exactly the stack that was
there, wherever the shipped definitions are the nearest. What is read on the way is the script, so
every addition is done as soon as it is read and none is left waiting. -/
theorem sum_adds_up {m : Machine ν τ} (hm : m.limit = none) (hs : m.host.Supplies embed)
    {base : Stack ν τ} (hb : Shipped embed own base) (xs : List Int) :
    let script := quot [] :: sumScript embed own xs
    m.Yields [word "sum", quot (xs.map num)] base script.length
        (.ok (num (xs.foldr (· + ·) 0) :: base)) ∧
      (m.reading script.length (.start [word "sum", quot (xs.map num)] base)).map cover =
        script := by
  intro script
  exact Machine.yields_of_reaches hm
    ((Reaches.pushQuot (xs.map num)).trans (sum_reads hs hb xs []))

/-- Beneath the sum an addition waits, on a single number. -/
theorem sum_adds_up_waiting :
    ∃ program made base k,
      Program.assemble (fun _ => .error .missing) .shipped [] 3 = .ok program ∧
      ({} : Settings).machine.Yields program [] made (.ok base) ∧
      Shipped id (fun _ => ()) (native .add () :: num 7 :: base) ∧
      ({} : Settings).machine.Yields [word "sum", quot [num 3, num (-5)]]
        (native .add () :: num 7 :: base) k
        (.ok (num (-2) :: native .add () :: num 7 :: base)) := by
  obtain ⟨program, made, hprogram, hbase⟩ :=
    yields_standing (fun _ => .error .missing) (Nat.le_refl 3)
  have hsupplies : ({} : Settings).machine.host.Supplies (id : Primitive → Primitive) :=
    fun _ _ _ => rfl
  have hshipped : Shipped id (fun _ => ()) (native .add () :: num 7 :: standing) :=
    Shipped.above (shipped_standing.above rfl) rfl
  have hsum := (sum_adds_up (m := ({} : Settings).machine) rfl hsupplies hshipped [3, -5]).1
  exact ⟨program, made, standing, _, hprogram, hbase, hshipped, hsum⟩

end Prelude
end Leftward
