import CompactRisc.Instruction.Basic

/-!
# The instruction set

All instructions in a fixed order. Opcodes `0b0000` and `0b1111` are shared by many instructions and
told apart by the extension. The no-operation is an alias: its word is the one of `OR r0 r0`.
-/
namespace CompactRisc.Instruction

def catalog : List Instruction :=
  [⟨"ADD", 0b0000, some 0b0000, .destSource⟩,
   ⟨"ADDI", 0b0001, none, .destByte⟩,
   ⟨"ADDC", 0b0000, some 0b0001, .destSource⟩,
   ⟨"ADDCI", 0b0010, none, .destByte⟩,
   ⟨"MUL", 0b0000, some 0b0010, .destSource⟩,
   ⟨"MULI", 0b0011, none, .destByte⟩,
   ⟨"SUB", 0b0000, some 0b0011, .destSource⟩,
   ⟨"SUBI", 0b0100, none, .destByte⟩,
   ⟨"CMP", 0b0000, some 0b0100, .destSource⟩,
   ⟨"CMPI", 0b0101, none, .destByte⟩,
   ⟨"NOT", 0b0000, some 0b0101, .destSource⟩,
   ⟨"NOTI", 0b0110, none, .destByte⟩,
   ⟨"AND", 0b0000, some 0b0110, .destSource⟩,
   ⟨"ANDI", 0b0111, none, .destByte⟩,
   ⟨"OR", 0b0000, some 0b0111, .destSource⟩,
   ⟨"ORI", 0b1000, none, .destByte⟩,
   ⟨"XOR", 0b0000, some 0b1000, .destSource⟩,
   ⟨"XORI", 0b1001, none, .destByte⟩,
   ⟨"LSH", 0b0000, some 0b1001, .destSource⟩,
   ⟨"LSHI", 0b0000, some 0b1010, .destNibble⟩,
   ⟨"RSH", 0b0000, some 0b1011, .destSource⟩,
   ⟨"RSHI", 0b0000, some 0b1100, .destNibble⟩,
   ⟨"ALSH", 0b0000, some 0b1101, .destSource⟩,
   ⟨"ALSHI", 0b0000, some 0b1110, .destNibble⟩,
   ⟨"ARSH", 0b0000, some 0b1111, .destSource⟩,
   ⟨"ARSHI", 0b1111, some 0b0000, .destNibble⟩,
   ⟨"MOV", 0b1111, some 0b0001, .destSource⟩,
   ⟨"MOVIL", 0b1010, none, .destByte⟩,
   ⟨"MOVIU", 0b1011, none, .destByte⟩,
   ⟨"JEQ", 0b1111, some 0b0010, .jump .equal⟩,
   ⟨"JNE", 0b1111, some 0b0010, .jump .notEqual⟩,
   ⟨"JCS", 0b1111, some 0b0010, .jump .carrySet⟩,
   ⟨"JCC", 0b1111, some 0b0010, .jump .carryClear⟩,
   ⟨"JFS", 0b1111, some 0b0010, .jump .flagSet⟩,
   ⟨"JFC", 0b1111, some 0b0010, .jump .flagClear⟩,
   ⟨"JLT", 0b1111, some 0b0010, .jump .lessThan⟩,
   ⟨"JLE", 0b1111, some 0b0010, .jump .lessOrEqual⟩,
   ⟨"JLO", 0b1111, some 0b0010, .jump .lower⟩,
   ⟨"JLS", 0b1111, some 0b0010, .jump .lowerOrSame⟩,
   ⟨"JGT", 0b1111, some 0b0010, .jump .greaterThan⟩,
   ⟨"JGE", 0b1111, some 0b0010, .jump .greaterOrEqual⟩,
   ⟨"JHI", 0b1111, some 0b0010, .jump .higher⟩,
   ⟨"JHS", 0b1111, some 0b0010, .jump .higherOrSame⟩,
   ⟨"JUC", 0b1111, some 0b0010, .jump .unconditional⟩,
   ⟨"BEQ", 0b1100, none, .branch .equal⟩,
   ⟨"BNE", 0b1100, none, .branch .notEqual⟩,
   ⟨"BCS", 0b1100, none, .branch .carrySet⟩,
   ⟨"BCC", 0b1100, none, .branch .carryClear⟩,
   ⟨"BFS", 0b1100, none, .branch .flagSet⟩,
   ⟨"BFC", 0b1100, none, .branch .flagClear⟩,
   ⟨"BLT", 0b1100, none, .branch .lessThan⟩,
   ⟨"BLE", 0b1100, none, .branch .lessOrEqual⟩,
   ⟨"BLO", 0b1100, none, .branch .lower⟩,
   ⟨"BLS", 0b1100, none, .branch .lowerOrSame⟩,
   ⟨"BGT", 0b1100, none, .branch .greaterThan⟩,
   ⟨"BGE", 0b1100, none, .branch .greaterOrEqual⟩,
   ⟨"BHI", 0b1100, none, .branch .higher⟩,
   ⟨"BHS", 0b1100, none, .branch .higherOrSame⟩,
   ⟨"BUC", 0b1100, none, .branch .unconditional⟩,
   ⟨"CALL", 0b1111, some 0b0011, .call⟩,
   ⟨"CALLD", 0b1101, none, .callNear⟩,
   ⟨"RET", 0b1111, some 0b0100, .ret⟩,
   ⟨"LPC", 0b1111, some 0b0101, .dest⟩,
   ⟨"LSF", 0b1111, some 0b0110, .dest⟩,
   ⟨"SSF", 0b1111, some 0b0111, .source⟩,
   ⟨"PUSH", 0b1111, some 0b1000, .source⟩,
   ⟨"POP", 0b1111, some 0b1001, .dest⟩,
   ⟨"LOAD", 0b1111, some 0b1010, .destSource⟩,
   ⟨"STORE", 0b1111, some 0b1011, .destSource⟩,
   ⟨"LOADX", 0b1111, some 0b1100, .destSource⟩,
   ⟨"STOREX", 0b1111, some 0b1101, .destSource⟩,
   ⟨"NOP", 0b0000, some 0b0111, .nop⟩]

/-- The instruction of a given mnemonic; case matters. -/
def ofMnemonic? (mnemonic : String) : Option Instruction :=
  catalog.find? (·.mnemonic == mnemonic)

/-- The instruction with a displacement that does what this jump or call through a register does. -/
def shortForm? (i : Instruction) : Option Instruction :=
  match i.shape with
  | .jump c => catalog.find? (·.shape == .branch c)
  | .call => catalog.find? (·.shape == .callNear)
  | _ => none

end CompactRisc.Instruction
