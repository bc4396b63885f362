import CompactRisc.Text.Lines
import CompactRisc.Text.Numeral
import CompactRisc.Word

/-!
# Machine code text

One word a line, in a base of choice, with as many digits as the widest word needs. The text can be
padded with lines of a fill word up to a given number of lines. Room for all of it is made at the
start, and there is no text if that is more than there can be.
-/
namespace CompactRisc

/-- The base of the numerals in the machine code text. -/
inductive Radix where
  | binary
  | decimal
  | hexadecimal
  deriving DecidableEq, Repr

namespace Radix

def base : Radix → Nat
  | binary => 2
  | decimal => 10
  | hexadecimal => 16

def width : Radix → Nat
  | binary => 16
  | decimal => 5
  | hexadecimal => 4

/-- The numeral of a word, with upper-case digits and leading zeros. -/
def format (r : Radix) (w : Word) : String :=
  String.ofList ((Text.zeroFilled r.base r.width w.toNat).map Char.toUpper)

end Radix

/-- Lines that follow the words until the text has `lineCount` of them. -/
structure Padding where
  lineCount : UInt64 := 0
  fill : Word := 0
  deriving DecidableEq, Repr

namespace Padding

/-- The number of lines that are missing. A program that is long enough is not cut. -/
def missing (p : Padding) (words : List Word) : Nat := p.lineCount.toNat - words.length

def extend (p : Padding) (words : List Word) : List Word :=
  words ++ List.replicate (p.missing words) p.fill

end Padding

/-- The number of bytes in the machine code text. A numeral is followed by a line feed. -/
def machineCodeSize (radix : Radix) (padding : Padding) (words : List Word) : Nat :=
  (words.length + padding.missing words) * (radix.width + 1)

/-- The machine code text of a list of words, unless there is no room for it. -/
def machineCode (radix : Radix) (padding : Padding) (words : List Word) : Option String :=
  if machineCodeSize radix padding words ≤ Text.maxSize then
    some (Text.unlines ((padding.extend words).map radix.format))
  else none

end CompactRisc
