import CompactRisc.Instruction.Decoding
import CompactRisc.Output.MachineCode

/-!
# Listings

A listing shows the address of each word, the word, and the instruction that it stands for. A word
that stands for no instruction is shown as data.
-/
namespace CompactRisc.Listing

def row : Word × Nat → String
  | (w, address) =>
    String.ofList (Text.zeroFilled 16 4 address) ++ ": " ++ Radix.hexadecimal.format w ++ "  " ++
      ((Decoded.ofWord? w).elim ".word" Decoded.text)

def render (words : List Word) : String := Text.unlines (words.zipIdx.map row)

end CompactRisc.Listing
