/-!
# Quoted text

Text as it stands inside the inspected form of an expression: single quotes, unless the text
holds a single quote and no double quote. The quote in use and the backslash are escaped, tab and
the line breaks by their letters, other control characters of ASCII by two hexadecimal digits.
Everything else stands as it is.
-/

namespace Leftward
namespace Text

/-- Lower-case hexadecimal digit of a number below sixteen. -/
def hexDigit (n : Nat) : Char := Nat.digitChar n

/-- Two hexadecimal digits of a number below 256. -/
def hexByte (n : Nat) : String := String.ofList [hexDigit (n / 16), hexDigit (n % 16)]

/-- One character between quotes of the given kind. -/
def escape (quote c : Char) : String :=
  if c = quote || c = '\\' then String.ofList ['\\', c]
  else if c = '\n' then "\\n"
  else if c = '\r' then "\\r"
  else if c = '\t' then "\\t"
  else if c.toNat < 0x20 || c.toNat = 0x7F then "\\x" ++ hexByte c.toNat
  else String.singleton c

/-- The quote that a text is set in. -/
def quoteFor (text : List Char) : Char :=
  if '\x27' ∈ text ∧ '\x22' ∉ text then '\x22' else '\x27'

/-- The text between quotes. -/
def quoted (text : String) : String :=
  let quote := quoteFor text.toList
  text.toList.foldl (fun out c => out ++ escape quote c) (String.singleton quote)
    ++ String.singleton quote

end Text
end Leftward
