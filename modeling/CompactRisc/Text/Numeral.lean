/-!
# Numerals

The texts of numbers that the assembler writes: plain decimals for displacements, `0x` numerals
for address bytes and immediates, and numerals filled with zeros to a fixed width for columns.
-/
namespace CompactRisc.Text

/-- The digits of `n` in `base`, filled with zeros on the left to at least `width` digits. -/
def zeroFilled (base width n : Nat) : List Char :=
  (Nat.toDigits base n).leftpad width '0'

def decimal (v : Int) : String :=
  if v < 0 then String.ofList ('-' :: Nat.toDigits 10 v.natAbs)
  else String.ofList (Nat.toDigits 10 v.natAbs)

/-- The `0x` numeral of `n` with lower-case digits, at least `width` of them. -/
def hexadecimal (width n : Nat) : String :=
  String.ofList ('0' :: 'x' :: zeroFilled 16 width n)

/-- The binary text of an integer's 32-bit two's complement pattern, without leading zeros. -/
def pattern32 (v : Int) : String :=
  String.ofList (Nat.toDigits 2 (BitVec.ofInt 32 v).toNat)

end CompactRisc.Text
