import CompactRisc.Encoding
import CompactRisc.Layout.Expansion
import CompactRisc.Layout.Materialization
import CompactRisc.Proofs.Decoding
import CompactRisc.Proofs.Mentions
import CompactRisc.Proofs.Numerals

/-!
# Lines that stand for an instruction

The lines that a resolution writes are accepted by the encoder, and their words are decoded to the
instructions that they are meant to be.

Results:
* `Line.means_of_read`: a line whose operands can be read means its instruction with these operands.
* `Line.means_low`, `Line.means_high`, `Line.means_through`, `Line.means_short`: the four kinds of
  lines that a resolution writes.
-/
namespace CompactRisc

/-- The line is encoded to a word that is decoded to this instruction and operands. -/
def Line.Means (l : Line) (i : Instruction) (operands : List Operand) : Prop :=
  ∃ w, l.encode = .ok w ∧ Decoded.ofWord? w = some ⟨i, operands⟩

/-! ## Operands that are read -/

namespace Slot

theorem read_register (f : Field) (r : Register) :
    (register f).read r.name = .ok (.register r) := by
  rw [read, readRegister_name]
  rfl

theorem read_immediate {least greatest v : Int} {token : String} (f : Field)
    (hv : Literal.read? token = some v) (hleast : least ≤ v) (hgreatest : v ≤ greatest) :
    (immediate least greatest f).read token = .ok (.immediate v) := by
  have hread : readImmediate token least greatest = .ok v := by
    simp only [readImmediate, readNumber_of_read? hv, ok_bind, if_neg (Int.not_lt.2 hleast),
      if_neg (Int.not_lt.2 hgreatest)]
  rw [read, hread]
  rfl

theorem accepts_of_read {s : Slot} {token : String} {o : Operand} (h : s.read token = .ok o) :
    s.Accepts o := by
  cases s with
  | register f =>
    obtain ⟨r, -, rfl⟩ := map_eq_ok.1 h
    trivial
  | immediate least greatest f =>
    obtain ⟨v, hv, rfl⟩ := map_eq_ok.1 h
    obtain ⟨n, -, hv⟩ := bind_eq_ok.1 hv
    split at hv
    · cases hv
    · rename_i hleast
      split at hv
      · cases hv
      · rename_i hgreatest
        cases hv
        exact ⟨Int.not_lt.1 hleast, Int.not_lt.1 hgreatest⟩

end Slot

theorem Instruction.accepts_of_readOperands {i : Instruction} {tokens : List String}
    {operands : List Operand} (h : i.readOperands tokens = .ok operands) :
    List.Forall₂ Slot.Accepts i.slots operands := by
  unfold readOperands at h
  split at h
  · rename_i hlen
    have hlen' : i.slots.length ≤ tokens.tail.length := by
      rw [List.length_tail, hlen]
      exact Nat.le_refl _
    rw [mapM_eq_ok] at h
    have hslots : (i.slots.zip tokens.tail).map Prod.fst = i.slots := List.map_fst_zip hlen'
    rw [← hslots, List.forall₂_map_left_iff]
    exact h.imp fun x o hx => Slot.accepts_of_read hx
  · cases h

/-- A line whose operands can be read means its instruction with these operands. -/
theorem Line.means_of_read {i : Instruction} (hi : i ∈ Instruction.catalog)
    (halias : i.isAlias = false) (source : Nat) {tokens : List String} {operands : List Operand}
    (h : i.readOperands (i.mnemonic :: tokens) = .ok operands) :
    Means ⟨i.mnemonic :: tokens, source⟩ i (List.zipWith Slot.canonical i.slots operands) := by
  refine ⟨i.encode operands, ?_,
    Decoded.ofWord?_encode hi halias (Instruction.accepts_of_readOperands h)⟩
  have hmnemonic : Instruction.ofMnemonic? (Line.first ⟨i.mnemonic :: tokens, source⟩) = some i :=
    Instruction.ofMnemonic?_mnemonic i hi
  unfold encode
  simp only [hmnemonic, Instruction.assemble, h]
  rfl

/-! ## Lines that a resolution writes -/

theorem Line.means_byte {i : Instruction} (hi : i ∈ Instruction.catalog)
    (hshape : i.shape = .destByte) (r : Register) {n : Nat} (hn : n < 256) (source : Nat) :
    Means ⟨[i.mnemonic, r.name, Text.hexadecimal 0 n], source⟩ i [.register r, .immediate n] := by
  have hslots :
      i.slots = [.register Shape.destField, .immediate (-128) 255 (Shape.lowField 8)] := by
    rw [Instruction.slots, hshape]
    rfl
  have hread : i.readOperands [i.mnemonic, r.name, Text.hexadecimal 0 n] =
      .ok [.register r, .immediate n] := by
    have hv := Literal.read?_hexadecimal 0 (show n ≤ 2147483647 by omega)
    simp [Instruction.readOperands, hslots, Slot.read_register,
      Slot.read_immediate _ hv (show (-128 : Int) ≤ n by omega) (show (n : Int) ≤ 255 by omega)]
  have hmeans := means_of_read hi (by simp [Instruction.isAlias, hshape]) source hread
  have hcanonical : List.zipWith Slot.canonical i.slots [.register r, .immediate n] =
      [.register r, .immediate n] := by
    have hmod : (n : Int) % 256 = n := by omega
    simp [hslots, Slot.canonical, Slot.isSigned, Slot.field, Shape.lowField, hmod]
  rwa [hcanonical] at hmeans

theorem Line.means_low (r : Register) (a source : Nat) :
    Means ⟨Layout.lowTokens r (Layout.lowByte a), source⟩ Instruction.movil
      [.register r, .immediate (a % 256 : Nat)] :=
  means_byte Instruction.moves_mem_catalog.2.1 rfl r (Nat.mod_lt a (by decide)) source

theorem Line.means_high (r : Register) (a source : Nat) :
    Means ⟨Layout.highTokens r (Layout.highByte a), source⟩ Instruction.moviu
      [.register r, .immediate (a / 256 % 256 : Nat)] :=
  means_byte Instruction.moves_mem_catalog.2.2 rfl r (Nat.mod_lt _ (by decide)) source

theorem Line.means_through {i : Instruction} (hi : i ∈ Instruction.catalog)
    (htransfer : i.isTransfer = true) (r : Register) (source : Nat) :
    Means ⟨[i.mnemonic, r.name], source⟩ i [.register r] := by
  have hslots := Instruction.slots_of_isTransfer htransfer
  have halias : i.isAlias = false := by
    unfold Instruction.isTransfer at htransfer
    split at htransfer <;> simp_all [Instruction.isAlias]
  have hread : i.readOperands [i.mnemonic, r.name] = .ok [.register r] := by
    simp [Instruction.readOperands, hslots, Slot.read_register]
  have hmeans := means_of_read hi halias source hread
  rwa [hslots] at hmeans

theorem Line.means_short {short : Instruction} (hi : short ∈ Instruction.catalog)
    {least greatest v : Int}
    (hrange : short.shape.displacementRange? = some (least, greatest)) (hleast : least ≤ v)
    (hgreatest : v ≤ greatest) (source : Nat) :
    Means ⟨[short.mnemonic, Text.decimal v], source⟩ short [.immediate v] := by
  obtain ⟨width, hslots, hsigned, h32⟩ : ∃ width,
      short.slots = [.immediate least greatest (Shape.lowField width)] ∧
      (Slot.immediate least greatest (Shape.lowField width)).isSigned = true ∧
      -2147483648 ≤ least ∧ greatest ≤ 2147483647 ∧ short.isAlias = false := by
    unfold Shape.displacementRange? at hrange
    split at hrange
    · rename_i hshape
      cases hrange
      exact ⟨8, by rw [Instruction.slots, hshape]; rfl, by decide, by decide, by decide,
        by simp [Instruction.isAlias, hshape]⟩
    · rename_i hshape
      cases hrange
      exact ⟨12, by rw [Instruction.slots, hshape]; rfl, by decide, by decide, by decide,
        by simp [Instruction.isAlias, hshape]⟩
    · cases hrange
  have hv : Literal.read? (Text.decimal v) = some v :=
    Literal.read?_decimal (by simp [Literal.fits32]; omega)
  have hread : short.readOperands [short.mnemonic, Text.decimal v] = .ok [.immediate v] := by
    simp [Instruction.readOperands, hslots, Slot.read_immediate _ hv hleast hgreatest]
  have hmeans := means_of_read hi h32.2.2 source hread
  simp only [hslots, List.zipWith_cons_cons, List.zipWith_nil_left, Slot.canonical, hsigned,
    if_true]
    at hmeans
  exact hmeans

end CompactRisc
