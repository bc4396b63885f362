/-!
# Lines of a text

A line ends at a line feed, and a carriage return right before the line feed belongs to the end
of the line. What follows the last line feed is a line only if it is not empty, and it is kept as
it stands.
-/
namespace CompactRisc.Text

/-- Drops one carriage return from the end. -/
def chomp (line : List Char) : List Char :=
  if line.getLast? = some '\r' then line.dropLast else line

/-- The lines of a text, without their ends. -/
def lines (text : String) : List String :=
  let pieces := text.toList.splitOn '\n'
  (pieces.dropLast.map chomp ++ pieces.getLast?.toList.filter (!·.isEmpty)).map String.ofList

/-- Every line followed by a line feed. -/
def unlines (lines : List String) : String :=
  String.join (lines.map (· ++ "\n"))

/-- The greatest number of bytes in a text, where the size of an object is a signed number of 64
bits. -/
def maxSize : Nat := 0x7FFFFFFFFFFFFFFF

end CompactRisc.Text
