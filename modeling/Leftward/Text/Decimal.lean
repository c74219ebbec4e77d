import Leftward.Text.Blank

/-!
# Decimal numerals

Integers are unbounded, but **their decimal text is not**: a numeral has at most `maxDigits`
digits, in both directions. Writing an integer that needs more fails (`write`), and so does
reading a longer numeral, leading zeros included (`read`). Computing with such integers is fine;
only their text does not exist.

`read` takes the full numeral form: white space around it, a sign, digits of any script, and
single underscores between digits. The number literals of the language are the case with ASCII
digits alone.
-/

namespace Leftward
namespace Decimal

/-- The most digits that a numeral may have; a sign is not counted. -/
def maxDigits : Nat := 4300

/-- The least number that needs more digits than a numeral may have. -/
def tooLarge : Nat := Nat.pow 10 maxDigits

/-- The decimal text of an integer, or none if it needs more than `maxDigits` digits. -/
def write (i : Int) : Option String :=
  if i.natAbs < tooLarge then
    some (if i < 0 then "-" ++ i.natAbs.repr else i.natAbs.repr)
  else none

/-! ## Digits of every script -/

/-- The code points that Unicode gives the decimal value zero; the nine that follow each of them
have the values one to nine. -/
def zeros : List Nat :=
  [0x30, 0x660, 0x6F0, 0x7C0, 0x966, 0x9E6, 0xA66, 0xAE6, 0xB66, 0xBE6, 0xC66, 0xCE6, 0xD66, 0xDE6,
    0xE50, 0xED0, 0xF20, 0x1040, 0x1090, 0x17E0, 0x1810, 0x1946, 0x19D0, 0x1A80, 0x1A90, 0x1B50,
    0x1BB0, 0x1C40, 0x1C50, 0xA620, 0xA8D0, 0xA900, 0xA9D0, 0xA9F0, 0xAA50, 0xABF0, 0xFF10,
    0x104A0, 0x10D30, 0x11066, 0x110F0, 0x11136, 0x111D0, 0x112F0, 0x11450, 0x114D0, 0x11650,
    0x116C0, 0x11730, 0x118E0, 0x11950, 0x11C50, 0x11D50, 0x11DA0, 0x16A60, 0x16AC0, 0x16B50,
    0x1D7CE, 0x1D7D8, 0x1D7E2, 0x1D7EC, 0x1D7F6, 0x1E140, 0x1E2F0, 0x1E950, 0x1FBF0]

/-- The ASCII digit with the decimal value of `c`, or none if `c` is no digit. -/
def asciiDigit? (c : Char) : Option Char :=
  (zeros.find? fun z => z ≤ c.toNat && c.toNat ≤ z + 9).map
    fun z => Char.ofNat (0x30 + (c.toNat - z))

/-! ## Reading -/

/-- Digits with single underscores between them, as ASCII digits; `before` tells whether the
character before was a digit, after which an underscore may stand. -/
def digits? (before : Bool) : List Char → Option (List Char)
  | [] => if before then some [] else none
  | c :: rest =>
    match asciiDigit? c with
    | some d => (digits? true rest).map (d :: ·)
    | none => if before && c = '_' then digits? false rest else none

/-- The value of a sign and the digits after it. -/
def signed? (negative : Bool) (cs : List Char) : Option Int := do
  let ds ← digits? false cs
  if ds.length ≤ maxDigits then
    let n := Nat.ofDigitChars 10 ds 0
    return if negative then -n else n
  else none

/-- White space that may stand around a numeral; the separators U+001C to U+001F may not. -/
def isPadding (c : Char) : Bool := Text.isBlank c && !(0x1C ≤ c.toNat && c.toNat ≤ 0x1F)

/-- The integer that a numeral denotes, or none if the text is no numeral or too long for one. -/
def read (text : List Char) : Option Int :=
  let core := ((text.dropWhile isPadding).reverse.dropWhile isPadding).reverse
  match core with
  | '-' :: rest => signed? true rest
  | '+' :: rest => signed? false rest
  | rest => signed? false rest

end Decimal
end Leftward
