import CompactRisc.Line

/-!
# Programs under edit

A program is a sequence of lines that can be edited while others hold on to its lines. Each line
has a handle that stays the same when lines are inserted and removed around it. The address of a
line is its current position in the sequence.

The lines are kept in the order in which they were made, and never deleted, so a handle is an index
into `store`. The sequence is `order`, a list of handles. `positions` gives back the position of
each handle, and nothing for a line that has been removed.

* `push`, `insert`, `removeAt`, `removeId` and `retain` change the sequence.
* `modify` and `modifyLive` change the contents of lines and leave the sequence alone.
* `entries` is the sequence that a program stands for, each line with its handle.
-/
namespace CompactRisc

/-- Handle of a line. -/
abbrev LineId := Nat

/-- A sequence of lines with handles. -/
structure Program where
  /-- All lines that were ever part of the program, by handle. -/
  store : Array Line := #[]
  /-- The handles of the sequence, in order. -/
  order : Array LineId := #[]
  /-- The position of each handle in the sequence. -/
  positions : Array (Option Nat) := #[]
  deriving DecidableEq, Repr, Inhabited

namespace Program

def size (p : Program) : Nat := p.order.size

def isEmpty (p : Program) : Bool := p.order.isEmpty

/-- The handle that the next new line will get. -/
def nextId (p : Program) : LineId := p.store.size

/-- The line of a handle, whether or not it is still part of the sequence. -/
def line? (p : Program) (id : LineId) : Option Line := p.store[id]?

/-- The line of a handle; a line without tokens if there is no such handle. -/
def line (p : Program) (id : LineId) : Line := (p.line? id).getD ⟨[], 0⟩

/-- The current position of a line in the sequence. -/
def position (p : Program) (id : LineId) : Option Nat := p.positions.getD id none

def idAt (p : Program) (pos : Nat) : Option LineId := p.order[pos]?

def ids (p : Program) : List LineId := p.order.toList

/-- The lines of the sequence with their handles, in order. -/
def entries (p : Program) : List (LineId × Line) := p.ids.map fun id => (id, p.line id)

def lines (p : Program) : List Line := p.ids.map p.line

/-- Records the position of every handle from position `pos` on. -/
def reindex (order : Array LineId) (positions : Array (Option Nat)) (pos : Nat) :
    Array (Option Nat) :=
  if h : pos < order.size then
    reindex order (positions.setIfInBounds order[pos] (some pos)) (pos + 1)
  else positions
termination_by order.size - pos

/-- Adds a new line at the end. Its handle is `nextId`. -/
def push (p : Program) (l : Line) : Program :=
  let id := p.store.size
  let pos := p.order.size
  { store := p.store.push l
    order := p.order.push id
    positions := p.positions.push (some pos) }

/-- Puts a new line before the one at `pos`, or at the end if `pos` is the number of lines. Its
handle is `nextId`. Past the end, the new line has a handle and no position. -/
def insert (p : Program) (pos : Nat) (l : Line) : Program :=
  let id := p.store.size
  let order := p.order.insertIdxIfInBounds pos id
  { store := p.store.push l
    order
    positions := reindex order (p.positions.push none) pos }

def removeAt (p : Program) (pos : Nat) : Program :=
  match p.order[pos]? with
  | none => p
  | some id =>
    let order := p.order.eraseIdxIfInBounds pos
    { store := p.store
      order
      positions := reindex order (p.positions.setIfInBounds id none) pos }

/-- Takes a line out of the sequence, if it is still part of it. -/
def removeId (p : Program) (id : LineId) : Program :=
  match p.position id with
  | none => p
  | some pos => p.removeAt pos

/-- Takes out every line that fails the test. -/
def retain (p : Program) (keep : Line → Bool) : Program :=
  let dropped := p.order.foldl
    (fun positions id => if keep (p.line id) then positions else positions.setIfInBounds id none)
    p.positions
  let order := p.order.filter fun id => keep (p.line id)
  { store := p.store
    order
    positions := reindex order dropped 0 }

/-- Changes the contents of one line, whether or not it is still part of the sequence. -/
def modify (p : Program) (id : LineId) (f : Line → Line) : Program :=
  { p with store := p.store.modify id f }

/-- The handles of the sequence, in the order in which they were made. -/
def liveIds (p : Program) : List LineId :=
  (List.range p.store.size).filter fun id => (p.position id).isSome

/-- Changes the contents of every line of the sequence. The function also gets the place of the
line among the lines of the sequence in the order in which they were made. -/
def modifyLive (p : Program) (f : Nat → Line → Line) : Program :=
  p.liveIds.zipIdx.foldl (fun p (id, k) => p.modify id (f k)) p

def ofLines (lines : List Line) : Program := lines.foldl push {}

end Program

end CompactRisc
