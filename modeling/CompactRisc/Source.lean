import CompactRisc.Dialect
import CompactRisc.Program

/-!
# Source text

A raw line is read as its words, up to the first word that starts a comment. Raw lines without
words leave no trace in the program, except in the numbers of the lines after them.
-/
namespace CompactRisc.Source

def tokens (d : Dialect) (raw : String) : List String :=
  (Text.words raw).takeWhile (!d.isComment ·)

/-- The line of a raw line with the given number, unless it has no tokens. -/
def line? (d : Dialect) : String × Nat → Option Line
  | (raw, n) => if (tokens d raw).isEmpty then none else some ⟨tokens d raw, n⟩

/-- The lines of tokens of a list of raw lines, numbered from 1. -/
def lines (d : Dialect) (raw : List String) : List Line :=
  (raw.zipIdx 1).filterMap (line? d)

def program (d : Dialect) (raw : List String) : Program :=
  Program.ofLines (lines d raw)

end CompactRisc.Source
