import Leftward.Text.Quoted

/-!
# UTF-8

Decoding of bytes, strict: no overlong form, no surrogate, nothing above U+10FFFF. The decoder
takes one byte at a time. Between characters it reads a lead byte, which fixes how many
continuation bytes are owed and the range of the first of them (`lead`); the later ones lie in
80–BF. A byte that cannot stand where it stands stops the decoding, and the fault names **the
bytes of the unfinished character**: the lead byte and the continuation bytes that were in order.
-/

namespace Leftward
namespace Utf8

/-- A character of which the lead byte and perhaps some continuation bytes have been read. -/
structure Unfinished where
  /-- The position of the lead byte. -/
  start : Nat
  /-- The lead byte. -/
  lead : UInt8
  /-- How many bytes of the character have been read. -/
  seen : Nat
  /-- How many bytes are still owed. -/
  owed : Nat
  /-- The least that the next byte may be. -/
  low : UInt8
  /-- The greatest that the next byte may be. -/
  high : UInt8
  /-- The bits of the code point read so far. -/
  bits : Nat

/-- Why bytes are not UTF-8. -/
inductive Why where
  | invalidStart
  | invalidContinuation
  | unexpectedEnd
  deriving DecidableEq, Repr

/-- Where decoding stopped, and why. -/
structure Fault where
  /-- The position of the first byte at fault. -/
  start : Nat
  /-- The byte at that position. -/
  lead : UInt8
  /-- How many bytes are at fault, at least one. -/
  count : Nat
  why : Why
  deriving DecidableEq, Repr

/-- A character left unfinished. -/
def Unfinished.fault (u : Unfinished) (why : Why) : Fault := ⟨u.start, u.lead, u.seen, why⟩

/-- What the lead byte of a character of several bytes announces. -/
def lead (start : Nat) (b : UInt8) : Option Unfinished :=
  if 0xC2 ≤ b ∧ b ≤ 0xDF then some ⟨start, b, 1, 1, 0x80, 0xBF, b.toNat - 0xC0⟩
  else if b = 0xE0 then some ⟨start, b, 1, 2, 0xA0, 0xBF, 0⟩
  else if b = 0xED then some ⟨start, b, 1, 2, 0x80, 0x9F, 0xD⟩
  else if 0xE1 ≤ b ∧ b ≤ 0xEF then some ⟨start, b, 1, 2, 0x80, 0xBF, b.toNat - 0xE0⟩
  else if b = 0xF0 then some ⟨start, b, 1, 3, 0x90, 0xBF, 0⟩
  else if b = 0xF4 then some ⟨start, b, 1, 3, 0x80, 0x8F, 4⟩
  else if 0xF1 ≤ b ∧ b ≤ 0xF3 then some ⟨start, b, 1, 3, 0x80, 0xBF, b.toNat - 0xF0⟩
  else none

/-- Decode the bytes from a position on, in front of which `done` has been read in reverse and
perhaps a character begun. -/
def decodeFrom (position : Nat) (begun : Option Unfinished) (done : List Char) :
    List UInt8 → Except Fault (List Char)
  | [] =>
    match begun with
    | none => .ok done.reverse
    | some u => .error (u.fault .unexpectedEnd)
  | b :: rest =>
    match begun with
    | none =>
      if b < 0x80 then decodeFrom (position + 1) none (Char.ofNat b.toNat :: done) rest
      else
        match lead position b with
        | none => .error ⟨position, b, 1, .invalidStart⟩
        | some u => decodeFrom (position + 1) (some u) done rest
    | some u =>
      if u.low ≤ b ∧ b ≤ u.high then
        let bits := u.bits * 64 + (b.toNat - 0x80)
        if u.owed ≤ 1 then decodeFrom (position + 1) none (Char.ofNat bits :: done) rest
        else
          decodeFrom (position + 1)
            (some ⟨u.start, u.lead, u.seen + 1, u.owed - 1, 0x80, 0xBF, bits⟩) done rest
      else .error (u.fault .invalidContinuation)

/-- The text that the bytes encode, or where they stop being UTF-8. -/
def decode (bytes : List UInt8) : Except Fault (List Char) := decodeFrom 0 none [] bytes

/-! ## Wording -/

/-- The reason in words. -/
def Why.text : Why → String
  | .invalidStart => "invalid start byte"
  | .invalidContinuation => "invalid continuation byte"
  | .unexpectedEnd => "unexpected end of data"

/-- The fault in words: a single byte is shown, several are given by their positions. -/
def Fault.text (f : Fault) : String :=
  (if f.count ≤ 1 then
    "'utf-8' codec can't decode byte 0x" ++ Text.hexByte f.lead.toNat ++ " in position "
      ++ f.start.repr
  else
    "'utf-8' codec can't decode bytes in position " ++ f.start.repr ++ "-"
      ++ (f.start + f.count - 1).repr)
    ++ ": " ++ f.why.text

end Utf8
end Leftward
