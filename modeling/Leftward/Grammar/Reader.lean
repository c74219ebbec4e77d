import Leftward.Grammar.Node
import Leftward.Text.Blank

/-!
# The reader — text to syntax tree

A program is a sequence of terms. At each position **the first alternative that matches wins**, in
the order comment, boolean, character, number, quotation, pair, string, word (`alternatives`).
Every token is as long as it can be, terms need nothing between them, and each term takes the
skipped characters behind it along. Whatever is left where no term matches becomes one `unparsed`
leaf at the end, so reading a text always gives a tree: the tree is where failure is found.

The one thing that can go wrong here is depth. Brackets are read with a limited room for brackets
inside them; **brackets without room stop the reading at once**, whether or not they would have
matched. How much room there is belongs to the machine that reads and not to the language, so it is
left open (`maxDepth` is what is taken if nothing is said).
-/

namespace Leftward
namespace Grammar

open Text

/-- What reading at a position comes to. -/
inductive Read (α : Type) where
  -- Something was read, and the rest is still to be read.
  | matched (value : α) (rest : List Char)
  -- It is not there.
  | unmatched
  -- There are brackets beyond the reader's room.
  | tooDeep

namespace Read

variable {α β : Type}

/-- The first reading, or if it does not match the second. -/
def orElse (first : Read α) (second : Unit → Read α) : Read α :=
  match first with
  | .unmatched => second ()
  | other => other

instance : OrElse (Read α) := ⟨orElse⟩

/-- One reading after the other. -/
def andThen (first : Read α) (second : α → List Char → Read β) : Read β :=
  match first with
  | .matched value rest => second value rest
  | .unmatched => .unmatched
  | .tooDeep => .tooDeep

end Read

/-! ## Tokens -/

/-- The text behind the characters that are passed over. -/
def skip (cs : List Char) : List Char := cs.dropWhile isSkipped

/-- Two dashes and the rest of the line, with the line breaks that follow. -/
def comment : List Char → Read Node
  | '-' :: '-' :: cs =>
    let line := cs.takeWhile (!isLineBreak ·)
    let behind := cs.dropWhile (!isLineBreak ·)
    .matched (.leaf .comment ('-' :: '-' :: (line ++ behind.takeWhile isLineBreak)))
      (behind.dropWhile isLineBreak)
  | _ => .unmatched

/-- The letters of `True` or `False`, whatever follows them. -/
def boolean : List Char → Read Node
  | 'T' :: 'r' :: 'u' :: 'e' :: rest => .matched (.truth true) rest
  | 'F' :: 'a' :: 'l' :: 's' :: 'e' :: rest => .matched (.truth false) rest
  | _ => .unmatched

/-- A point and any character. -/
def character : List Char → Read Node
  | '.' :: c :: rest => .matched (.leaf .character ['.', c]) rest
  | _ => .unmatched

/-- A run of ASCII digits. -/
def number (cs : List Char) : Read Node :=
  match cs.takeWhile Char.isDigit with
  | [] => .unmatched
  | digits => .matched (.leaf .number digits) (cs.dropWhile Char.isDigit)

/-- Whether the character opens, and also closes, a string. -/
def isDelimiter (c : Char) : Bool := c = '\x22' || c = '\x27' || c = '\x60'

/-- A delimiter and everything up to its next occurrence. -/
def string : List Char → Read Node
  | d :: cs =>
    if isDelimiter d then
      match cs.dropWhile (· ≠ d) with
      | _ :: rest => .matched (.leaf .string (d :: (cs.takeWhile (· ≠ d) ++ [d]))) rest
      | [] => .unmatched
    else .unmatched
  | [] => .unmatched

/-- Whether a word may hold the character: no white space, control character, bracket or string
delimiter. -/
def isWordChar (c : Char) : Bool :=
  !(isBlank c || c.toNat < 0x20 || c = '[' || c = ']' || c = '(' || c = ')' || isDelimiter c)

/-- Whether a word may begin with the character, which is then no point and no digit either. -/
def isWordStart (c : Char) : Bool := isWordChar c && !(c = '.' || c.isDigit)

/-- A run of word characters. -/
def word : List Char → Read Node
  | c :: cs =>
    if isWordStart c then
      .matched (.leaf .word (c :: cs.takeWhile isWordChar)) (cs.dropWhile isWordChar)
    else .unmatched
  | [] => .unmatched

/-! ## Terms -/

/-- A reading together with the skipped characters behind it. -/
def spaced (reading : Read Node) : Read Node :=
  reading.andThen fun value rest => .matched value (skip rest)

/-- As many as there are, one after the other, and the text behind them; none if one of them is
too deep. At most `fuel` are read, which is no limit if it is the length of the text. -/
def many (p : List Char → Read Node) : Nat → List Char → Option (List Node × List Char)
  | 0, cs => some ([], cs)
  | fuel + 1, cs =>
    match p cs with
    | .matched value rest => (many p fuel rest).map fun (values, rest) => (value :: values, rest)
    | .unmatched => some ([], cs)
    | .tooDeep => none

/-- Square brackets around any number of terms. `inner` reads one of them; it is missing if there
is no room for brackets. -/
def quotation (fuel : Nat) (inner : Option (List Char → Read Node)) : List Char → Read Node
  | '[' :: cs =>
    match inner with
    | none => .tooDeep
    | some p =>
      match many p fuel (skip cs) with
      | some (items, ']' :: rest) => .matched (.branch .quotation items) rest
      | some _ => .unmatched
      | none => .tooDeep
  | _ => .unmatched

/-- Round brackets around exactly two terms. -/
def pair (inner : Option (List Char → Read Node)) : List Char → Read Node
  | '(' :: cs =>
    match inner with
    | none => .tooDeep
    | some p =>
      (p (skip cs)).andThen fun first cs =>
        (p cs).andThen fun second cs =>
          match cs with
          | ')' :: rest => .matched (.branch .pair [first, second]) rest
          | _ => .unmatched
  | _ => .unmatched

/-- The alternatives for a term, in order. -/
def alternatives (fuel : Nat) (inner : Option (List Char → Read Node)) (cs : List Char) :
    Read Node :=
  comment cs <|> boolean cs <|> character cs <|> number cs <|> quotation fuel inner cs
    <|> pair inner cs <|> string cs <|> word cs

/-- One term, with room for so many brackets inside each other. -/
def term (fuel : Nat) : Nat → List Char → Read Node
  | 0 => alternatives fuel none
  | room + 1 => alternatives fuel (some fun cs => spaced (term fuel room cs))

/-- How many brackets may stand inside each other, if nothing else is asked for. -/
def maxDepth : Nat := 300

/-- The terms of a whole program and the text behind them. -/
def terms (fuel : Nat) (text : List Char) (room : Nat := maxDepth) :
    Option (List Node × List Char) :=
  many (fun cs => spaced (term fuel room cs)) fuel (skip text)

/-- The syntax tree of a text, or none if its brackets are nested too deeply for the room that there
is. -/
def read (text : List Char) (room : Nat := maxDepth) : Option Node :=
  (terms text.length text room).map fun (items, rest) =>
    match rest with
    | [] => .branch .program items
    | _ => .branch .program (items ++ [.leaf .unparsed rest])

end Grammar
end Leftward
