/-!
# Words and fields

A machine word has 16 bits. An operand lives in a field of it, a window of `width` bits above bit
`shift`. Packing keeps the low bits of a value, so signed and unsigned spellings of one pattern
pack alike; reading back takes the window either as an unsigned or as a two's complement number.
-/
namespace CompactRisc

abbrev Word := BitVec 16

/-- A window of bits inside a word. -/
structure Field where
  /-- Number of bits below the window. -/
  shift : Nat
  /-- Number of bits in the window. -/
  width : Nat
  deriving DecidableEq, Repr

namespace Field

/-- The word that holds the low bits of `v` in the window and zeros elsewhere. Bits that the
shift moves above bit 15 are lost. -/
def pack (f : Field) (v : Int) : Word :=
  (BitVec.ofInt f.width v).setWidth 16 <<< f.shift

def extractUnsigned (f : Field) (w : Word) : Nat :=
  (w.extractLsb' f.shift f.width).toNat

def extractSigned (f : Field) (w : Word) : Int :=
  (w.extractLsb' f.shift f.width).toInt

def extract (f : Field) (w : Word) (signed : Bool) : Int :=
  if signed then f.extractSigned w else f.extractUnsigned w

end Field

end CompactRisc
