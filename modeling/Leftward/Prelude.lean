/-!
# The prelude

The words that are written in the language itself. The prelude is a source text like any other;
it stands after a program's own sources and before the definitions of the primitives, so that a
program's words, which lie above it on the stack, are found first.
-/

namespace Leftward

/-- The text of the shipped prelude. -/
def preludeText : String :=
"-- headstone.fn: the standard prelude, loaded after every program.
-- Words are applied right to left, so each body reads as a pipeline
-- from its last element to its first.

-- Stack shuffling
def swap   [bury 1]
def over   [swap dip [dup]]
def rot    [exhume 2]
def unrot  [bury 2]
def nip    [dip [drop]]

-- Application and choice
def i      [apply]
def if     [apply or swap and swap]
def ifte   [if exhume 2 dig 2]

-- Comparison and arithmetic
def !=     [not =]
def succ   [+ 1]
def pred   [- swap 1]
def neg    [- 0]

-- Quotations
def length  [ifte [null dup] [0 drop] [+ 1 length drop splitAt 1]]
def reverse [ifte [null dup] [] [append dip [reverse] splitAt 1]]
def sum     [ifte [null dup] [0 drop] [+ apply dip [sum] splitAt 1]]
"

end Leftward
