import Leftward.Fault

/-!
# Natives — operations that the host supplies

A native operation acts on the normalised stack beneath it and answers with an `Outcome`. It may
**fire**: then it gives the part of the stack that it leaves alone, and code to be read on top of
it. It may **defer**: then it stays on the stack as a value, waiting for operands. Or it fails.

A `Host` says what the natives of a type are called and what they do.
-/

namespace Leftward

/-- What a native answers. -/
inductive Outcome (ν τ : Type) where
  -- The native fired: `front` is to be read on top of `base`, which is left as it is.
  | applied (front : List (Expr ν τ)) (base : Stack ν τ)
  -- The native declined.
  | deferred
  -- The native failed.
  | failed (failure : Failure ν τ)
  -- Something that is no outcome, by what it looks like.
  | malformed (shown : String)

/-- A supply of natives. -/
structure Host (ν τ : Type) where
  /-- The name of a native. -/
  name : ν → String
  /-- What a native does to the stack beneath it; definitions that it makes carry the tag. -/
  act : ν → τ → Stack ν τ → Outcome ν τ
  /-- The tag for what is made in a given step. -/
  stamp : Nat → τ

end Leftward
