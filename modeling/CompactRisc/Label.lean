import CompactRisc.Dialect
import CompactRisc.Fault
import CompactRisc.Program

/-!
# Labels

A label is declared on a line of its own and stands for the next line that is no declaration.
Several labels may stand for one line. A label at the end of a program stands for nothing and is a
fault.
-/
namespace CompactRisc

structure Label where
  /-- The name with its mark. -/
  name : String
  target : LineId
  /-- Number of the source line with the declaration. -/
  line : Nat
  deriving DecidableEq, Repr

namespace Label

def declares (d : Dialect) (l : Line) : Bool := d.isLabel l.first

/-- The labels of the lines read so far. -/
structure Scan where
  /-- Labels whose line has been found. -/
  labels : Array Label := #[]
  /-- Names and source lines of the labels that wait for the next line. -/
  pending : List (String × Nat) := []
  deriving DecidableEq, Repr

def Scan.declared (s : Scan) (name : String) : Bool :=
  s.labels.any (·.name == name) || s.pending.any (·.1 == name)

/-- Lets the waiting labels stand for a line. -/
def Scan.bind (s : Scan) (id : LineId) : Scan :=
  { labels := s.pending.foldl (fun labels (name, line) => labels.push ⟨name, id, line⟩) s.labels
    pending := [] }

def Scan.read (d : Dialect) (p : Program) (s : Scan) (id : LineId) : Except Fault Scan :=
  let l := p.line id
  if !declares d l then .ok (s.bind id)
  else if l.tokens.length ≠ 1 then .error ⟨.labelArity d.labelMark l.text, l.source⟩
  else if l.first = d.labelMark then .error ⟨.labelNameless d.labelMark l.text, l.source⟩
  else if s.declared l.first then .error ⟨.labelTwice l.first, l.source⟩
  else .ok { s with pending := s.pending ++ [(l.first, l.source)] }

/-- The labels of a scan that has read all lines; none of them may still wait. -/
def Scan.finish (s : Scan) : Except Fault (Array Label) :=
  match s.pending with
  | [] => .ok s.labels
  | (name, line) :: _ => .error ⟨.labelDangling name, line⟩

/-- The labels of a program, in the order of their declarations. -/
def ofProgram (d : Dialect) (p : Program) : Except Fault (Array Label) := do
  let s ← p.ids.foldlM (Scan.read d p) {}
  s.finish

def strip (d : Dialect) (p : Program) : Program := p.retain (!declares d ·)

end Label

end CompactRisc
