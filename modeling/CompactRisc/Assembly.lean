import CompactRisc.Text.Lines
import CompactRisc.Source
import CompactRisc.Define
import CompactRisc.Resolution
import CompactRisc.Encoding

/-!
# Assembly

The whole way from source text to machine words.
-/
namespace CompactRisc

/-- An assembled source. -/
structure Assembly where
  words : List Word
  /-- The program of plain instructions, one line for each word. -/
  program : Program
  symbols : List Symbol
  warnings : List Warning
  deriving DecidableEq, Repr

/-- The program of a list of raw lines, with its defines put to use. -/
def preprocess (d : Dialect) (raw : List String) : Except Fault Program :=
  Prod.fst <$> Defines.apply d (Source.program d raw)

def assembleLines (d : Dialect) (raw : List String) : Except Fault Assembly := do
  let p ← preprocess d raw
  let r ← p.resolve d
  let words ← r.program.encode
  return { words, program := r.program, symbols := r.symbols, warnings := r.warnings }

def assemble (d : Dialect) (text : String) : Except Fault Assembly :=
  assembleLines d (Text.lines text)

end CompactRisc
