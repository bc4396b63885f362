import CompactRisc.Program

/-!
# Edits

The ways in which a program can be changed, as data, so that one can speak of all that may happen to
a program from the time it is made. An edit is refused if it names a place or a line that there is
not.
-/
namespace CompactRisc

/-- One change to a program. -/
inductive Edit where
  /-- A new line at the end. -/
  | push (line : Line)
  /-- A new line before the one at a place. -/
  | insert (pos : Nat) (line : Line)
  /-- The line at a place is taken out. -/
  | removeAt (pos : Nat)
  /-- A line is taken out, if it is still there. -/
  | removeId (id : LineId)
  /-- The lines that fail a test are taken out. -/
  | retain (keep : Line → Bool)
  /-- The contents of one line change, also if it has been taken out. -/
  | modify (id : LineId) (change : Line → Line)
  /-- The contents of all lines of the sequence change, one after the other. -/
  | modifyLive (change : Nat → Line → Line)

inductive Edit.Answer where
  /-- The handle of the new line. -/
  | made (id : LineId)
  /-- The handle of the line that was taken out. -/
  | removed (id : LineId)
  /-- Where the line stood, if it was still there. -/
  | stood (pos : Option Nat)
  /-- The handles of the lines that were gone through, in turn. -/
  | visited (ids : List LineId)
  | done
  deriving DecidableEq, Repr

namespace Program

def edit? (p : Program) : Edit → Option (Edit.Answer × Program)
  | .push l => some (.made p.nextId, p.push l)
  | .insert pos l => if pos ≤ p.size then some (.made p.nextId, p.insert pos l) else none
  | .removeAt pos => (p.idAt pos).map fun id => (.removed id, p.removeAt pos)
  | .removeId id => some (.stood (p.position id), p.removeId id)
  | .retain keep => some (.done, p.retain keep)
  | .modify id f => (p.line? id).map fun _ => (.done, p.modify id f)
  | .modifyLive f => some (.visited p.liveIds, p.modifyLive f)

def editAll? (p : Program) : List Edit → Option (List Edit.Answer × Program)
  | [] => some ([], p)
  | e :: edits =>
    (p.edit? e).bind fun x => (x.2.editAll? edits).map fun y => (x.1 :: y.1, y.2)

end Program

end CompactRisc
