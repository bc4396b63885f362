/-!
# Registers

The machine has sixteen general registers, numbered 0 to 15. The last one is the stack pointer
and goes by its own name. Names are case-sensitive.
-/
namespace CompactRisc

/-- A general register, by its 4-bit number. -/
abbrev Register := Fin 16

namespace Register

def r0 : Register := ⟨0, by decide⟩

/-- The names of the registers, in the order of their numbers. -/
def names : List String :=
  ["r0", "r1", "r2", "r3", "r4", "r5", "r6", "r7", "r8", "r9", "r10", "r11", "r12", "r13", "r14",
    "rsp"]

def name (r : Register) : String := names.get r

def ofName? (name : String) : Option Register := names.finIdxOf? name

end Register

end CompactRisc
