import CompactRisc.Instruction.Catalog

/-!
# Decoding

A word is decoded by the first instruction, aliases apart, whose fixed bits it has. The bits that
belong neither to the fixed bits nor to an operand must be zero, so that a decoded word can be
written as source text and assembled again.
-/
namespace CompactRisc

/-- An instruction together with its operands. -/
structure Decoded where
  instruction : Instruction
  operands : List Operand
  deriving DecidableEq, Repr

namespace Decoded

def encode (d : Decoded) : Word := d.instruction.encode d.operands

/-- The instruction whose fixed bits a word has. -/
def instructionOf? (w : Word) : Option Instruction :=
  Instruction.catalog.find? fun i => !i.isAlias && w &&& i.fixedMask == i.fixedBits

/-- The instruction and operands that a word stands for. -/
def ofWord? (w : Word) : Option Decoded := do
  let i ← instructionOf? w
  let d : Decoded := ⟨i, i.extract w⟩
  if d.encode = w then some d else none

/-- An operand as source text. The byte of a register and byte instruction is hexadecimal; of a
negative number that would be the 32-bit two's complement pattern. -/
def operandText (shape : Shape) : Operand × Nat → String
  | (.immediate v, 1) =>
    if shape = .destByte then Text.hexadecimal 2 (BitVec.ofInt 32 v).toNat else Text.decimal v
  | (operand, _) => operand.text

def text (d : Decoded) : String :=
  " ".intercalate
    (d.instruction.mnemonic :: d.operands.zipIdx.map (operandText d.instruction.shape))

end Decoded

end CompactRisc
