/-!
# Lines

A line of a program is a list of tokens, together with the number of the source line that it comes
from. Lines that the assembler generates carry the number of the line they are generated for.
-/
namespace CompactRisc

structure Line where
  tokens : List String
  /-- Number of the source line, counted from 1. -/
  source : Nat
  deriving DecidableEq, Repr, Inhabited

namespace Line

/-- The first token, or the empty text if there is none. -/
def first (l : Line) : String := l.tokens.headD ""

/-- The tokens with one space between them. -/
def text (l : Line) : String := " ".intercalate l.tokens

def setToken (l : Line) (index : Nat) (token : String) : Line :=
  { l with tokens := l.tokens.set index token }

end Line

end CompactRisc
