import CompactRisc.Instruction.Catalog
import CompactRisc.Fault
import CompactRisc.Program

/-!
# Encoding

Each line of a program without labels is one word: an instruction, or a number that fits 16 bits as
a signed or as an unsigned number.
-/
namespace CompactRisc

/-- The word of a line that starts with no mnemonic. -/
def Line.encodeNumber (l : Line) : Except Fault Word :=
  match Literal.read? l.first with
  | none => .error ⟨.unknownLine l.text, l.source⟩
  | some v =>
    if 1 < l.tokens.length then .error ⟨.severalNumbers, l.source⟩
    else if -32768 ≤ v ∧ v ≤ 65535 then .ok (BitVec.ofInt 16 v)
    else .error ⟨.numberTooWide l.text, l.source⟩

def Line.encode (l : Line) : Except Fault Word :=
  match Instruction.ofMnemonic? l.first with
  | some i => Fault.atLine l.source (i.assemble l.tokens)
  | none => l.encodeNumber

def Program.encode (p : Program) : Except Fault (List Word) := p.lines.mapM Line.encode

end CompactRisc
