import CompactRisc.Layout.Basic

/-!
# Expansion

Every line that mentions a label becomes the lines that load the address of the label, with the name
of the label in place of the bytes. The line itself keeps its handle and becomes the first of them,
so that labels that stand for it stand for the whole.
-/
namespace CompactRisc.Layout

def lowTokens (r : Register) (byte : String) : List String := ["MOVIL", r.name, byte]

def highTokens (r : Register) (byte : String) : List String := ["MOVIU", r.name, byte]

/-- Writes out the load of an address in place of the line `id`, which stands at `pos`. -/
def insertLoad (s : Layout) (id : LineId) (pos source : Nat) (label : Label) (load : AddressLoad) :
    Layout :=
  let ⟨program, labels, references⟩ := s
  let low := program.modify id ({ · with tokens := lowTokens load.register label.name })
  let high := low.nextId
  let pair := low.insert (pos + 1) ⟨highTokens load.register label.name, source⟩
  match load.transfer with
  | none => ⟨pair, labels, references.push ⟨label, id, high, none, .expanded⟩⟩
  | some (through, short) =>
    let line := pair.nextId
    let triple := pair.insert (pos + 2) ⟨[through.mnemonic, load.register.name], source⟩
    ⟨triple, labels, references.push ⟨label, id, high, some ⟨line, short⟩, .expanded⟩⟩

/-- Expands the reference on one line, if there is one. -/
def expandLine (d : Dialect) (s : Layout) (id : LineId) : Except Fault Layout := do
  let l := s.program.line id
  match ← Mention.find d s.labels l, s.program.position id with
  | some m, some pos =>
    let load ← m.load d l
    return s.insertLoad id pos l.source m.label load
  | _, _ => return s

/-- Expands the references on all lines, first to last. The lines that come in on the way are not
looked at. -/
def expand (d : Dialect) (s : Layout) : Except Fault Layout :=
  s.program.ids.foldlM (expandLine d) s

end CompactRisc.Layout
