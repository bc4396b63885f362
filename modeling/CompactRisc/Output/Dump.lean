import CompactRisc.Text.Blank
import CompactRisc.Text.Lines
import CompactRisc.Program

/-!
# Dumps

The dump of a program shows the first three tokens of each line in columns: the mnemonic and the two
operands. The dump of a program of plain instructions is source text again.
-/
namespace CompactRisc

/-- The text filled with spaces on the right to at least `width` characters. -/
def Text.column (width : Nat) (text : String) : String :=
  String.ofList (text.toList.rightpad width ' ')

/-- The line in three columns, without blanks at its end. -/
def Line.row (l : Line) : String :=
  Text.trimEnd
    (Text.column 5 (l.tokens.getD 0 "") ++ " " ++ Text.column 3 (l.tokens.getD 1 "") ++ " " ++
      l.tokens.getD 2 "")

def Program.dump (p : Program) : String := Text.unlines (p.lines.map Line.row)

end CompactRisc
