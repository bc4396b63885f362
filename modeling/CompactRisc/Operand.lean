import CompactRisc.Text.Numeral
import CompactRisc.Literal
import CompactRisc.Register
import CompactRisc.Word

/-!
# Operands

An operand of an instruction is a register or an immediate. A slot says where in the word an
operand goes and, for an immediate, which values it admits. Reading a token against a slot gives
the operand or the reason why the token is refused.
-/
namespace CompactRisc

inductive Operand where
  | register (r : Register)
  | immediate (v : Int)
  deriving DecidableEq, Repr

/-- The reasons to refuse the operands of an instruction. -/
inductive OperandError where
  | unknownRegister (name : String)
  /-- The number of tokens is wrong; the usage that was expected, and the tokens. -/
  | arity (expected got : String)
  | below (value least : Int)
  | above (value greatest : Int)
  | badNumber (text : String)
  deriving DecidableEq, Repr

namespace OperandError

/-- The wording of each reason. Bounds are also shown as 32-bit patterns. -/
def message : OperandError → String
  | unknownRegister name => "Unrecognized register: " ++ name
  | arity expected got => "Invalid arguments. Expected: " ++ expected ++ ". Got: " ++ got
  | below _ least =>
    "Immediate value cannot be less than: " ++ Text.decimal least ++ " (" ++ Text.pattern32 least ++
      " in binary)"
  | above _ greatest =>
    "Immediate value cannot be greater than: " ++ Text.decimal greatest ++ " (" ++
      Text.pattern32 greatest ++ " in binary)"
  | badNumber text => "Could not parse number: " ++ text

end OperandError

namespace Operand

/-- The number that is packed into the word. -/
def value : Operand → Int
  | register r => r.val
  | immediate v => v

def text : Operand → String
  | register r => r.name
  | immediate v => Text.decimal v

end Operand

def readRegister (token : String) : Except OperandError Register :=
  match Register.ofName? token with
  | some r => .ok r
  | none => .error (.unknownRegister token)

/-- The value of a token that is a numeric literal. -/
def readNumber (token : String) : Except OperandError Int :=
  match Literal.read? token with
  | some v => .ok v
  | none => .error (.badNumber token)

/-- The value of a token that is a numeric literal between the bounds. -/
def readImmediate (token : String) (least greatest : Int) : Except OperandError Int := do
  let v ← readNumber token
  if v < least then .error (.below v least)
  else if greatest < v then .error (.above v greatest)
  else .ok v

/-- The place of an operand in the word. -/
inductive Slot where
  | register (field : Field)
  | immediate (least greatest : Int) (field : Field)
  deriving DecidableEq, Repr

namespace Slot

def field : Slot → Field
  | register f => f
  | immediate _ _ f => f

/-- An immediate has a sign if it may be negative and the greatest value it admits is also a signed
number of the field's width. -/
def isSigned : Slot → Bool
  | register _ => false
  | immediate least greatest f => least < 0 && greatest ≤ (BitVec.intMax f.width).toInt

/-- The operand that a token stands for in this slot. -/
def read (slot : Slot) (token : String) : Except OperandError Operand :=
  match slot with
  | register _ => Operand.register <$> readRegister token
  | immediate least greatest _ => Operand.immediate <$> readImmediate token least greatest

/-- The operand that a word holds in this slot. A register number is the field modulo 16, which
is the field itself for the four bits it has in every instruction. -/
def extract (slot : Slot) (w : Word) : Operand :=
  match slot with
  | register f => .register (Fin.ofNat 16 (f.extractUnsigned w))
  | immediate _ _ f => .immediate (f.extract w slot.isSigned)

end Slot

end CompactRisc
