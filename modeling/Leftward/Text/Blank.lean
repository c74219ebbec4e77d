/-!
# Blanks — the two senses of white space

The language uses the words "white space" in two senses, and the difference shows. **Between
terms** the reader passes over four characters only (`isSkipped`). **A word ends** at every
character that Unicode counts as white space (`isBlank`). A no-break space therefore ends a word
but is not passed over afterwards, so text that contains one between two words does not read.

Line breaks (`isLineBreak`) end a comment; they are among the skipped characters.
-/

namespace Leftward
namespace Text

/-- Line feed and carriage return end a line. -/
def isLineBreak (c : Char) : Bool := c = '\n' || c = '\r'

/-- Space, tab and the line breaks are passed over between two terms. -/
def isSkipped (c : Char) : Bool := c = ' ' || c = '\t' || isLineBreak c

/-- The white space of Unicode, with the four separators of ASCII (U+001C to U+001F). -/
def isBlank (c : Char) : Bool :=
  let n := c.toNat
  (0x09 ≤ n && n ≤ 0x0D) || (0x1C ≤ n && n ≤ 0x20) || n = 0x85 || n = 0xA0 || n = 0x1680
    || (0x2000 ≤ n && n ≤ 0x200A) || n = 0x2028 || n = 0x2029 || n = 0x202F || n = 0x205F
    || n = 0x3000

/-- What is passed over is white space. -/
theorem isBlank_of_isSkipped {c : Char} (h : isSkipped c = true) : isBlank c = true := by
  simp only [isSkipped, isLineBreak, Bool.or_eq_true, decide_eq_true_eq] at h
  rcases h with (rfl | rfl) | (rfl | rfl) <;> decide

end Text
end Leftward
