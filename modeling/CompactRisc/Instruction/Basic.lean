import CompactRisc.Operand
import CompactRisc.Instruction.Condition

/-!
# Instructions

An instruction is a mnemonic, an opcode, an optional extension of the opcode and a shape, which
says what operands it takes and where they go.

```text
 15    12 11     8 7      4 3      0
| opcode |  dest  |  ext   | source |   two registers
| opcode |  dest  |    immediate    |   register and byte
| opcode |  cond  |  ext   | target |   jump to a register
| opcode |  cond  |  displacement   |   branch
| opcode |       displacement       |   relative call
```

Opcode, extension and condition are the fixed bits of an instruction; the rest of the word belongs
to its operands or is zero.
-/
namespace CompactRisc

/-- The operands of a family of instructions. -/
inductive Shape where
  | destSource
  /-- Destination register and an 8-bit immediate. -/
  | destByte
  /-- Destination register and a 4-bit immediate. -/
  | destNibble
  | dest
  | source
  /-- Register that holds the address to jump to. -/
  | jump (condition : Condition)
  /-- 8-bit displacement from the next word. -/
  | branch (condition : Condition)
  /-- Register that holds the address to call. -/
  | call
  /-- 12-bit displacement from the next word. -/
  | callNear
  | ret
  /-- No operands, and another instruction's word. -/
  | nop
  deriving DecidableEq, Repr

namespace Shape

def destField : Field := ⟨8, 4⟩

/-- The low bits of the word, `width` of them. -/
def lowField (width : Nat) : Field := ⟨0, width⟩

/-- The slots of the operands, in the order in which they are written. A byte may be written as a
signed or as an unsigned number. -/
def slots : Shape → List Slot
  | destSource => [.register destField, .register (lowField 4)]
  | destByte => [.register destField, .immediate (-128) 255 (lowField 8)]
  | destNibble => [.register destField, .immediate 0 15 (lowField 4)]
  | dest => [.register destField]
  | source | jump _ | call => [.register (lowField 4)]
  | branch _ => [.immediate (-128) 127 (lowField 8)]
  | callNear => [.immediate (-2048) 2047 (lowField 12)]
  | ret | nop => []

def usage : Shape → String
  | destSource => "<Rdest> <Rsrc>"
  | destByte => "<Rdest> <Imm>"
  | destNibble => "<Rdest> <ImmLo>"
  | dest => "<Rdest>"
  | source => "<Rsrc>"
  | jump _ | call => "<Rtarget>"
  | branch _ | callNear => "<Displacement Imm>"
  | ret | nop => ""

/-- The condition that is part of the fixed bits. -/
def condition? : Shape → Option Condition
  | jump c | branch c => some c
  | _ => none

/-- The least and the greatest displacement of a control transfer relative to the next word. -/
def displacementRange? : Shape → Option (Int × Int)
  | branch _ => some (-128, 127)
  | callNear => some (-2048, 2047)
  | _ => none

end Shape

/-- An entry of the instruction set. -/
structure Instruction where
  mnemonic : String
  opcode : BitVec 4
  extension : Option (BitVec 4)
  shape : Shape
  deriving DecidableEq, Repr

namespace Instruction

def slots (i : Instruction) : List Slot := i.shape.slots

/-- Mnemonic and operands as a message shows them. -/
def usage (i : Instruction) : String :=
  if i.shape.usage.isEmpty then i.mnemonic else i.mnemonic ++ " " ++ i.shape.usage

def nibbleAt (shift : Nat) (n : BitVec 4) : Word := n.setWidth 16 <<< shift

/-- The bits that tell the instruction from others, whatever its operands. -/
def fixedBits (i : Instruction) : Word :=
  nibbleAt 12 i.opcode ||| (i.extension.elim 0 (nibbleAt 4)) |||
    (i.shape.condition?.elim 0 fun c => nibbleAt 8 c.code)

def fixedMask (i : Instruction) : Word :=
  0xF000 ||| (if i.extension.isSome then 0x00F0 else 0) |||
    (if i.shape.condition?.isSome then 0x0F00 else 0)

/-- An alias is another spelling of a word that belongs to some other instruction. -/
def isAlias (i : Instruction) : Bool := i.shape == .nop

/-- The word of the instruction with the given operands. Surplus operands are ignored, and missing
ones leave zeros. -/
def encode (i : Instruction) (operands : List Operand) : Word :=
  (i.slots.zip operands).foldl (fun w (slot, operand) => w ||| slot.field.pack operand.value)
    i.fixedBits

/-- The operands that a word holds, taken for a word of this instruction. -/
def extract (i : Instruction) (w : Word) : List Operand :=
  i.slots.map (·.extract w)

/-- The operands that the tokens after the mnemonic stand for. The first token is not looked at. -/
def readOperands (i : Instruction) (tokens : List String) : Except OperandError (List Operand) :=
  if tokens.length = i.slots.length + 1 then
    (i.slots.zip tokens.tail).mapM fun (slot, token) => slot.read token
  else .error (.arity i.usage (" ".intercalate tokens))

/-- The word of the instruction with operands as written. -/
def assemble (i : Instruction) (tokens : List String) : Except OperandError Word :=
  i.encode <$> i.readOperands tokens

end Instruction

end CompactRisc
