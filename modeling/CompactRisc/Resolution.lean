import CompactRisc.Layout.Expansion
import CompactRisc.Layout.Relaxation
import CompactRisc.Layout.Materialization

/-!
# Resolution of labels

The way from a program with labels to one of plain instructions: the declarations are read and
removed, every reference is expanded, near transfers are relaxed, and the addresses that remain are
filled in. What is left of the labels is a table of their addresses.
-/
namespace CompactRisc

/-- A label and its final address. -/
structure Symbol where
  name : String
  address : Nat
  deriving DecidableEq, Repr

/-- A program of plain instructions, and what became of its labels. -/
structure Resolution where
  program : Program
  /-- The labels in the order of their declarations. -/
  symbols : List Symbol
  warnings : List Warning
  /-- Number of references. -/
  expanded : Nat
  /-- Number of references in short form. -/
  relaxed : Nat
  deriving DecidableEq, Repr

namespace Layout

/-- The layout of a program whose references are still to be expanded. -/
def ofProgram (d : Dialect) (p : Program) : Except Fault Layout := do
  let labels ← Label.ofProgram d p
  return { program := Label.strip d p, labels }

def symbols (s : Layout) : Except Fault (List Symbol) :=
  s.labels.toList.mapM fun label => Symbol.mk label.name <$> s.address label

/-- A warning for each label without a reference. -/
def warnings (s : Layout) : List Warning :=
  (s.labels.toList.filter fun label => s.references.all (·.label.name != label.name)).map
    fun label => .unusedLabel label.name label.line

/-- The result of a layout in which every reference is relaxed or materialized. -/
def finish (s : Layout) : Except Fault Resolution := do
  let symbols ← s.symbols
  return {
    program := s.program
    symbols
    warnings := s.warnings
    expanded := s.references.size
    relaxed := s.references.countP (·.state = .relaxed) }

end Layout

/-- Turns all labels of a program into addresses. -/
def Program.resolve (d : Dialect) (p : Program) : Except Fault Resolution := do
  let s ← Layout.ofProgram d p
  let s ← s.expand d
  let s ← s.relax
  let s ← s.materialize
  s.finish

end CompactRisc
