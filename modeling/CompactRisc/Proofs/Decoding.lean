import Mathlib.Algebra.Group.Int.Defs
import CompactRisc.Instruction.Decoding
import CompactRisc.Proofs.Catalog
import CompactRisc.Proofs.Fallible
import CompactRisc.Proofs.Fields

/-!
# Decoding undoes encoding

A word that an instruction is encoded to is decoded to the same instruction. Its operands come
back as they were, except that a slot without a sign gives back an unsigned number.

Results:
* `Instruction.eq_of_fixedBits`: no word has the fixed bits of two instructions.
* `Decoded.ofWord?_encode`: decoding undoes encoding.
-/
namespace CompactRisc

namespace Slot

/-- The operands that may stand in a slot. -/
def Accepts : Slot → Operand → Prop
  | register _, .register _ => True
  | immediate least greatest _, .immediate v => least ≤ v ∧ v ≤ greatest
  | _, _ => False

/-- An operand as it is read back from its slot. -/
def canonical (s : Slot) : Operand → Operand
  | .register r => .register r
  | .immediate v => .immediate (if s.isSigned then v else v % 2 ^ s.field.width)

/-- The field of a slot holds all that the slot admits: a register number, or the signed numbers in
the range if it has a sign. -/
def Roomy : Slot → Prop
  | register f => f.width = 4
  | immediate least greatest f =>
    (immediate least greatest f).isSigned = true → 0 < f.width ∧ -(2 ^ (f.width - 1)) ≤ least

instance : DecidablePred Roomy
  | register f => inferInstanceAs (Decidable (f.width = 4))
  | immediate least greatest f => inferInstanceAs (Decidable
      ((immediate least greatest f).isSigned = true → 0 < f.width ∧ -(2 ^ (f.width - 1)) ≤ least))

theorem extract_register {f : Field} {r : Register} {w : Word} (hwidth : f.width = 4)
    (hw : w.extractLsb' f.shift f.width = BitVec.ofInt f.width (Operand.register r).value) :
    (register f).extract w = .register r := by
  obtain ⟨shift, width⟩ := f
  obtain rfl : width = 4 := hwidth
  have hr := r.isLt
  simp only [extract, Field.extractUnsigned, Operand.value] at hw ⊢
  rw [hw, BitVec.toNat_ofInt]
  congr
  apply Fin.ext
  simp only [Fin.val_ofNat]
  omega

theorem extract_eq_canonical {s : Slot} {o : Operand} {w : Word} (hroom : s.Roomy)
    (haccepts : s.Accepts o)
    (hw : w.extractLsb' s.field.shift s.field.width = BitVec.ofInt s.field.width o.value) :
    s.extract w = s.canonical o := by
  cases s with
  | register f =>
    cases o with
    | immediate v => cases haccepts
    | register r => exact extract_register hroom hw
  | immediate least greatest f =>
    cases o with
    | register r => cases haccepts
    | immediate v =>
      simp only [extract, canonical, field, Operand.value] at hw ⊢
      cases hsigned : (immediate least greatest f).isSigned with
      | true =>
        obtain ⟨hwidth, hleast⟩ := hroom hsigned
        have hgreatest : greatest ≤ 2 ^ (f.width - 1) - 1 := by
          simp only [isSigned, BitVec.toInt_intMax, Bool.and_eq_true, decide_eq_true_eq] at hsigned
          exact hsigned.2
        obtain ⟨hlow, hhigh⟩ := haccepts
        rw [Field.extract_signed_of_window hw hwidth (by omega) (by omega), if_pos rfl]
      | false => rw [Field.extract_unsigned_of_window hw, if_neg Bool.false_ne_true]

/-- The spelling of an operand does not matter to its field. -/
theorem pack_canonical (s : Slot) (o : Operand) :
    s.field.pack (s.canonical o).value = s.field.pack o.value := by
  cases o with
  | register r => rfl
  | immediate v =>
    simp only [canonical, Operand.value]
    split
    · rfl
    · have hmod : BitVec.ofInt s.field.width (v % 2 ^ s.field.width) =
          BitVec.ofInt s.field.width v := by
        apply BitVec.eq_of_toNat_eq
        rw [BitVec.toNat_ofInt, BitVec.toNat_ofInt]
        push_cast
        rw [Int.emod_emod_of_dvd v (Int.dvd_refl _)]
      rw [Field.pack, Field.pack, hmod]

end Slot

namespace Instruction

/-- The parts of the word of an instruction do not overlap. -/
structure Separate (i : Instruction) : Prop where
  fixed : i.fixedBits &&& i.fixedMask = i.fixedBits
  operands : ∀ s ∈ i.slots, s.field.mask &&& i.fixedMask = 0#16
  slots : i.slots.Pairwise fun s t => s.field.mask &&& t.field.mask = 0#16
  inside : ∀ s ∈ i.slots, s.field.shift + s.field.width ≤ 16
  roomy : ∀ s ∈ i.slots, s.Roomy

theorem separate : ∀ i ∈ catalog, i.Separate := by
  have h : ∀ i ∈ catalog, i.fixedBits &&& i.fixedMask = i.fixedBits ∧
      (∀ s ∈ i.slots, s.field.mask &&& i.fixedMask = 0#16) ∧
      (i.slots.Pairwise fun s t => s.field.mask &&& t.field.mask = 0#16) ∧
      (∀ s ∈ i.slots, s.field.shift + s.field.width ≤ 16) ∧ ∀ s ∈ i.slots, s.Roomy := by
    decide +kernel
  intro i hi
  obtain ⟨h₁, h₂, h₃, h₄, h₅⟩ := h i hi
  exact ⟨h₁, h₂, h₃, h₄, h₅⟩

/-- No word has the fixed bits of two instructions, aliases apart. -/
theorem eq_of_fixedBits {i j : Instruction} {w : Word} (hi : i ∈ catalog) (hj : j ∈ catalog)
    (hi' : i.isAlias = false) (hj' : j.isAlias = false) (hwi : w &&& i.fixedMask = i.fixedBits)
    (hwj : w &&& j.fixedMask = j.fixedBits) : i = j := by
  have h : ∀ i ∈ catalog, ∀ j ∈ catalog, i.isAlias = false → j.isAlias = false →
      i.fixedBits &&& j.fixedMask = j.fixedBits &&& i.fixedMask → i = j := by decide +kernel
  apply h i hi j hj hi' hj'
  rw [← hwi, ← hwj, BitVec.and_assoc, BitVec.and_assoc, BitVec.and_comm i.fixedMask]

theorem encode_and_fixedMask {i : Instruction} (h : i.Separate) (operands : List Operand) :
    i.encode operands &&& i.fixedMask = i.fixedBits := by
  rw [encode, Field.foldl_pack_and, h.fixed]
  exact fun x hx => h.operands x.1 (List.of_mem_zip hx).1

theorem encode_canonical (i : Instruction) (operands : List Operand) :
    i.encode (List.zipWith Slot.canonical i.slots operands) = i.encode operands := by
  unfold encode
  generalize i.fixedBits = w
  induction i.slots generalizing operands w with
  | nil => rfl
  | cons s slots ih =>
    cases operands with
    | nil => rfl
    | cons o operands =>
      simp only [List.zipWith_cons_cons, List.zip_cons_cons, List.foldl_cons, Slot.pack_canonical]
      exact ih operands _

theorem extract_encode {i : Instruction} (h : i.Separate) {operands : List Operand}
    (haccepts : List.Forall₂ Slot.Accepts i.slots operands) :
    i.extract (i.encode operands) = List.zipWith Slot.canonical i.slots operands := by
  have hwindows := Field.extract_foldl_pack h.slots h.inside haccepts.length_eq
    (w := i.fixedBits) (by
    intro s hs
    rw [← h.fixed, BitVec.and_assoc, BitVec.and_comm i.fixedMask, h.operands s hs, BitVec.and_zero])
  have hall : List.Forall₂ (fun s o => s.extract (i.encode operands) = s.canonical o) i.slots
      operands := by
    have hboth := (List.forall₂_and_left _ _).2 ⟨h.roomy, haccepts⟩
    exact List.Forall₂.mp (fun s o hs hw => Slot.extract_eq_canonical hs.1 hs.2 hw) hboth hwindows
  exact map_eq_zipWith_of_forall₂ hall

end Instruction

theorem Decoded.ofWord?_encode {i : Instruction} (hi : i ∈ Instruction.catalog)
    (halias : i.isAlias = false) {operands : List Operand}
    (haccepts : List.Forall₂ Slot.Accepts i.slots operands) :
    ofWord? (i.encode operands) = some ⟨i, List.zipWith Slot.canonical i.slots operands⟩ := by
  have hsep := Instruction.separate i hi
  have hfixed := Instruction.encode_and_fixedMask hsep operands
  have hfind : instructionOf? (i.encode operands) = some i := by
    cases hf : instructionOf? (i.encode operands) with
    | none =>
      have := List.find?_eq_none.1 hf i hi
      simp [halias, hfixed] at this
    | some j =>
      have hj := List.find?_some hf
      simp only [Bool.and_eq_true, Bool.not_eq_true', beq_iff_eq] at hj
      rw [Instruction.eq_of_fixedBits (List.mem_of_find?_eq_some hf) hi hj.1 halias hj.2 hfixed]
  unfold ofWord?
  simp [hfind, Instruction.extract_encode hsep haccepts, encode, Instruction.encode_canonical]

end CompactRisc
