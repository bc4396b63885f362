import CompactRisc.Reference

/-!
# Layouts

A layout is a program whose references to labels are on their way to becoming plain instructions.
Labels and references hold on to lines of the program by their handles. Addresses are never stored:
each one is looked up in the program at the moment it is needed, since the lines after it move
whenever a reference changes its size.

A reference starts as a pair of lines that load the low and the high byte of the address, for a jump
or call followed by the transfer through the register. It ends either in its short form, a single
line with a displacement, or with the two bytes filled in.
-/
namespace CompactRisc

/-- How far a reference has come. -/
inductive Reference.State where
  /-- The address is loaded, and its bytes are still to be filled in. -/
  | expanded
  /-- The reference is a single line with a displacement. -/
  | relaxed
  /-- The address is loaded, and its bytes are filled in. -/
  | materialized
  deriving DecidableEq, Repr

/-- The jump or call of a reference through the loading register. -/
structure Transfer where
  line : LineId
  /-- The instruction with a displacement that can take its place. -/
  short : Instruction
  deriving DecidableEq, Repr

/-- A reference to a label, and the lines that make it up. -/
structure Reference where
  label : Label
  /-- The line that loads the low byte. It is the line that the reference stood on. -/
  low : LineId
  /-- The line that loads the high byte. -/
  high : LineId
  transfer : Option Transfer
  state : Reference.State
  deriving DecidableEq, Repr

/-- A program with its labels and references. -/
structure Layout where
  program : Program
  labels : Array Label
  references : Array Reference := #[]
  deriving DecidableEq, Repr

namespace Layout

/-- The address of a label in the program as it is now. -/
def address (s : Layout) (label : Label) : Except Fault Nat :=
  match s.program.position label.target with
  | some a => .ok a
  | none => .error ⟨.labelDangling label.name, (s.program.line label.target).source⟩

/-- The displacement that takes control from a line to a label. It counts from the next word. -/
def displacement (s : Layout) (label : Label) (origin : LineId) : Except Fault Int := do
  let target ← s.address label
  match s.program.position origin with
  | some pos => return (target : Int) - pos - 1
  | none => .error ⟨.transferRemoved label.name, (s.program.line origin).source⟩

def edit (s : Layout) (f : Program → Program) : Layout :=
  let ⟨program, labels, references⟩ := s
  ⟨f program, labels, references⟩

/-- The layout with one reference moved on to another state. -/
def setState (s : Layout) (index : Nat) (state : Reference.State) : Layout :=
  let ⟨program, labels, references⟩ := s
  ⟨program, labels, references.modify index ({ · with state })⟩

/-- Runs a step on every reference in order, by its index. -/
def forReferences (step : Layout → Nat → Except Fault Layout) (s : Layout) : Except Fault Layout :=
  (List.range s.references.size).foldlM step s

end Layout

end CompactRisc
