/-!
# Numeric literals

A literal is read after all `_` have been dropped from it.

* `0b` or `0B` and binary digits give an unsigned 32-bit pattern, read as a two's complement
  number. No sign may stand before it.
* Anything else is an optional sign followed by `0x`, `0X` or `#` and hexadecimal digits, by a
  `0` and octal digits, or by decimal digits, and its value fits 32 bits signed.
-/
namespace CompactRisc.Literal

/-- The value of a digit in a base of at most 16; letters count in either case. -/
def digit? (base : Nat) (c : Char) : Option Nat :=
  let value :=
    if '0' ≤ c ∧ c ≤ '9' then c.toNat - '0'.toNat
    else if 'a' ≤ c ∧ c ≤ 'f' then c.toNat - 'a'.toNat + 10
    else if 'A' ≤ c ∧ c ≤ 'F' then c.toNat - 'A'.toNat + 10
    else base
  if value < base then some value else none

/-- The value of a non-empty list of digits. -/
def digits? (base : Nat) (digits : List Char) : Option Nat :=
  if digits.isEmpty then none
  else digits.foldlM (fun value c => (digit? base c).map (base * value + ·)) 0

/-- The value of a numeral without a sign. -/
def unsigned? : List Char → Option Nat
  | '0' :: 'x' :: digits => digits? 16 digits
  | '0' :: 'X' :: digits => digits? 16 digits
  | '#' :: digits => digits? 16 digits
  | '0' :: digit :: digits => digits? 8 (digit :: digits)
  | digits => digits? 10 digits

/-- The value of a numeral with an optional sign. -/
def signed? : List Char → Option Int
  | '-' :: numeral => (unsigned? numeral).map fun n => -(n : Int)
  | '+' :: numeral => (unsigned? numeral).map fun n => (n : Int)
  | numeral => (unsigned? numeral).map fun n => (n : Int)

/-- The value of a 32-bit pattern written in binary digits. -/
def pattern? (bits : List Char) : Option Int :=
  ((digits? 2 bits).filter (· ≤ 4294967295)).map fun n => (BitVec.ofNat 32 n).toInt

/-- Membership in the signed 32-bit range. -/
def fits32 (v : Int) : Bool := -2147483648 ≤ v && v ≤ 2147483647

/-- The value of a literal from which the `_` have been dropped. -/
def value? : List Char → Option Int
  | '0' :: 'b' :: bits => pattern? bits
  | '0' :: 'B' :: bits => pattern? bits
  | numeral => (signed? numeral).filter fits32

def read? (text : String) : Option Int :=
  value? (text.toList.filter (· ≠ '_'))

end CompactRisc.Literal
