import CompactRisc.Layout.Basic

/-!
# Materialization

The references that are still loads of an address get its two bytes. An address counts modulo 65536.
-/
namespace CompactRisc.Layout

/-- The low byte of an address, as a token. -/
def lowByte (address : Nat) : String := Text.hexadecimal 0 (address % 256)

/-- The second byte of an address, as a token. -/
def highByte (address : Nat) : String := Text.hexadecimal 0 (address / 256 % 256)

def materializeReference (s : Layout) (index : Nat) : Except Fault Layout :=
  match s.references[index]? with
  | none => .ok s
  | some r =>
    if r.state = .expanded then do
      let a ← s.address r.label
      return (s.setState index .materialized).edit fun program =>
        (program.modify r.low (·.setToken 2 (lowByte a))).modify r.high
          (·.setToken 2 (highByte a))
    else .ok s

/-- Fills in the bytes of all references that load an address. -/
def materialize (s : Layout) : Except Fault Layout :=
  s.forReferences materializeReference

end CompactRisc.Layout
