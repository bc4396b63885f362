import CompactRisc.Layout.Basic

/-!
# Relaxation

A jump or call through a register collapses into its short form if the displacement fits. The
references are tried once each, in order; one that is too far away when it is tried stays as it is,
also if a later collapse would bring its label near. The displacements are written only after the
last collapse, when the addresses have settled.
-/
namespace CompactRisc.Layout

/-- Replaces the lines of a reference by its short form, with the name of the label in place of the
displacement. -/
def collapse (s : Layout) (index : Nat) (r : Reference) (t : Transfer) : Layout :=
  (s.setState index .relaxed).edit fun program =>
    ((program.removeId t.line).removeId r.high).modify r.low
      ({ · with tokens := [t.short.mnemonic, r.label.name] })

def relaxReference (s : Layout) (index : Nat) : Except Fault Layout :=
  match s.references[index]? with
  | none => .ok s
  | some r =>
    match r.transfer with
    | none => .ok s
    | some t =>
      match t.short.shape.displacementRange? with
      | none => .ok s
      | some (least, greatest) => do
        let v ← s.displacement r.label t.line
        if least ≤ v ∧ v ≤ greatest then return s.collapse index r t else return s

/-- Writes the displacement of one collapsed reference. -/
def settleReference (s : Layout) (index : Nat) : Except Fault Layout :=
  match s.references[index]? with
  | none => .ok s
  | some r =>
    if r.state = .relaxed then do
      let v ← s.displacement r.label r.low
      return s.edit (·.modify r.low (·.setToken 1 (Text.decimal v)))
    else .ok s

/-- Collapses the references that are near enough, and writes their displacements. -/
def relax (s : Layout) : Except Fault Layout := do
  let s ← s.forReferences relaxReference
  s.forReferences settleReference

end CompactRisc.Layout
