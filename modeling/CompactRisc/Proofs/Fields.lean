import CompactRisc.Operand
import Mathlib.Algebra.Group.Int.Defs
import Mathlib.Algebra.Group.Nat.Defs
import Mathlib.Data.List.Forall2

/-!
# Fields of a word

Packing and reading back are inverse in each field, and fields that share no bit do not disturb each
other. Fields are compared by their masks, so that which fields of an instruction overlap can be
decided.

Results:
* `Field.extract_pack`: the window holds the low bits of what was packed.
* `Field.pack_extract`: packing what was read gives the bits of the window, with or without a sign.
* `Field.extract_inverts_pack`: the two are inverse, as far as the field has room, and leave other
  fields alone.
* `Field.extract_foldl_pack`: each of several separate fields holds what was packed into it.
* `Field.pack_eq_masked`, `Field.extract_eq_shifted`: the same operations in a register of 32 bits,
  with a mask and shifts.
-/
namespace CompactRisc.Field

def mask (f : Field) : Word := (BitVec.allOnes f.width).setWidth 16 <<< f.shift

theorem getLsbD_mask (f : Field) (i : Nat) :
    f.mask.getLsbD i =
      (decide (i < 16) && (decide (f.shift ≤ i) && decide (i - f.shift < f.width))) := by
  rw [mask, BitVec.getLsbD_shiftLeft, BitVec.getLsbD_setWidth, BitVec.getLsbD_allOnes]
  by_cases h : i < f.shift
  · simp [h, Nat.not_le.2 h]
  · by_cases hi : i < 16
    · have : i - f.shift < 16 := by omega
      simp [h, hi, this, Nat.le_of_not_lt h]
    · simp [hi]

theorem getLsbD_pack (f : Field) (v : Int) (i : Nat) :
    (f.pack v).getLsbD i =
      (f.mask.getLsbD i && (BitVec.ofInt f.width v).getLsbD (i - f.shift)) := by
  rw [getLsbD_mask, pack, BitVec.getLsbD_shiftLeft, BitVec.getLsbD_setWidth]
  by_cases h : i < f.shift
  · simp [h, Nat.not_le.2 h]
  · by_cases hi : i < 16
    · have : i - f.shift < 16 := by omega
      by_cases hw : i - f.shift < f.width
      · simp [h, hi, this, hw, Nat.le_of_not_lt h]
      · simp [h, hi, this, hw, Nat.le_of_not_lt h, BitVec.getLsbD_of_ge _ _ (Nat.le_of_not_lt hw)]
    · simp [hi]

theorem pack_and_mask (f : Field) (v : Int) : f.pack v &&& f.mask = f.pack v := by
  apply BitVec.eq_of_getLsbD_eq
  intro i _
  rw [BitVec.getLsbD_and, getLsbD_pack]
  cases f.mask.getLsbD i <;> simp

theorem pack_and_of_separate {f : Field} {m : Word} (h : f.mask &&& m = 0#16) (v : Int) :
    f.pack v &&& m = 0#16 := by
  rw [← pack_and_mask, BitVec.and_assoc, h, BitVec.and_zero]

theorem extractLsb'_of_and_mask {f : Field} {w : Word} (h : w &&& f.mask = 0#16) :
    w.extractLsb' f.shift f.width = 0#f.width := by
  apply BitVec.eq_of_getLsbD_eq
  intro i hi
  have hbit := congrArg (·.getLsbD (f.shift + i)) h
  simp only [BitVec.getLsbD_and, getLsbD_mask, Nat.le_add_right, Nat.add_sub_cancel_left, hi,
    decide_true, Bool.and_true] at hbit
  by_cases hlt : f.shift + i < 16
  · simpa [hi, hlt] using hbit
  · simp [BitVec.getLsbD_of_ge w _ (Nat.le_of_not_lt hlt)]

theorem extract_pack {f : Field} (h : f.shift + f.width ≤ 16) (v : Int) :
    (f.pack v).extractLsb' f.shift f.width = BitVec.ofInt f.width v := by
  apply BitVec.eq_of_getLsbD_eq
  intro i hi
  have hlt : f.shift + i < 16 := by omega
  rw [BitVec.getLsbD_extractLsb', getLsbD_pack, getLsbD_mask]
  simp [hi, hlt]

/-! ## One field -/

def HasBit (f : Field) (i : Nat) : Prop := f.shift ≤ i ∧ i < f.shift + f.width

instance (f : Field) (i : Nat) : Decidable (f.HasBit i) := inferInstanceAs (Decidable (_ ∧ _))

theorem getLsbD_mask_of_inside {f : Field} (h : f.shift + f.width ≤ 16) (i : Nat) :
    f.mask.getLsbD i = decide (f.HasBit i) := by
  have hbit : f.HasBit i ↔ i < 16 ∧ f.shift ≤ i ∧ i - f.shift < f.width := by
    unfold HasBit
    omega
  rw [getLsbD_mask, ← Bool.decide_and, ← Bool.decide_and]
  exact decide_eq_decide.2 hbit.symm

theorem mask_and_mask_of_disjoint {f g : Field} (h : ∀ i, f.HasBit i → ¬g.HasBit i) :
    f.mask &&& g.mask = 0#16 := by
  apply BitVec.eq_of_getLsbD_eq
  intro i _
  have hbit := h i
  unfold HasBit at hbit
  rw [BitVec.getLsbD_and, getLsbD_mask, getLsbD_mask, BitVec.getLsbD_zero]
  simp only [← Bool.decide_and, decide_eq_false_iff_not]
  omega

theorem ofInt_extract (f : Field) (w : Word) (signed : Bool) :
    BitVec.ofInt f.width (f.extract w signed) = w.extractLsb' f.shift f.width := by
  cases signed with
  | false =>
    rw [extract, if_neg Bool.false_ne_true, extractUnsigned, BitVec.ofInt_natCast,
      BitVec.ofNat_toNat, BitVec.setWidth_eq]
  | true => rw [extract, if_pos rfl, extractSigned, BitVec.ofInt_toInt]

/-- What is read from a window and packed again are the bits of the window. -/
theorem pack_extract (f : Field) (w : Word) (signed : Bool) :
    f.pack (f.extract w signed) = w &&& f.mask := by
  apply BitVec.eq_of_getLsbD_eq
  intro i _
  rw [getLsbD_pack, ofInt_extract, BitVec.getLsbD_and, BitVec.getLsbD_extractLsb', getLsbD_mask,
    Bool.and_comm]
  by_cases hshift : f.shift ≤ i
  · rw [Nat.add_sub_cancel' hshift]
    cases decide (i - f.shift < f.width) <;> simp
  · simp [hshift]

/-- Without a sign, a number is read modulo the size of the field. -/
theorem extract_unsigned_of_window {f : Field} {w : Word} {v : Int}
    (h : w.extractLsb' f.shift f.width = BitVec.ofInt f.width v) :
    f.extract w false = v % 2 ^ f.width := by
  have hpow : (0 : Int) < 2 ^ f.width := Int.pow_pos (by decide)
  rw [extract, if_neg Bool.false_ne_true, extractUnsigned, h, BitVec.toNat_ofInt,
    Int.toNat_of_nonneg] <;> push_cast
  · rfl
  · exact Int.emod_nonneg _ (Int.ne_of_gt hpow)

/-- With a sign, a number is read as it was if the field has room for it. -/
theorem extract_signed_of_window {f : Field} {w : Word} {v : Int}
    (h : w.extractLsb' f.shift f.width = BitVec.ofInt f.width v) (hwidth : 0 < f.width)
    (hleast : -(2 ^ (f.width - 1)) ≤ v) (hgreatest : v < 2 ^ (f.width - 1)) :
    f.extract w true = v := by
  rw [extract, if_pos rfl, extractSigned, h]
  exact BitVec.toInt_ofInt_eq_self hwidth hleast hgreatest

/-- What is packed into one field is not seen in the window of a separate one. -/
theorem extractLsb'_or_pack {f g : Field} (h : f.mask &&& g.mask = 0#16) (v : Int) (w : Word) :
    (w ||| f.pack v).extractLsb' g.shift g.width = w.extractLsb' g.shift g.width := by
  rw [BitVec.extractLsb'_or, extractLsb'_of_and_mask (pack_and_of_separate h v), BitVec.or_zero]

theorem extract_or_pack {f g : Field} (h : f.mask &&& g.mask = 0#16) (v : Int) (w : Word)
    (signed : Bool) : g.extract (w ||| f.pack v) signed = g.extract w signed := by
  unfold extract extractSigned extractUnsigned
  rw [extractLsb'_or_pack h]

/-- Packing and reading are inverse in a field that lies inside the word. What was packed is read
modulo the size of the field, and as it was if it fits with its sign; what was read and is packed
again are the bits of the window, read with a sign or without; and a field that has no bit in common
with this one is read as before. -/
theorem extract_inverts_pack {f : Field} (hwidth : 1 ≤ f.width) (hinside : f.shift + f.width ≤ 16)
    (v : Int) (w : Word) :
    f.extract (f.pack v) false = v % 2 ^ f.width ∧
    (-(2 ^ (f.width - 1)) ≤ v ∧ v < 2 ^ (f.width - 1) → f.extract (f.pack v) true = v) ∧
    (∀ signed i, (f.pack (f.extract w signed)).getLsbD i = (w.getLsbD i && decide (f.HasBit i))) ∧
    ∀ g : Field, (∀ i, f.HasBit i → ¬g.HasBit i) → ∀ signed,
      g.extract (w ||| f.pack v) signed = g.extract w signed := by
  have hwindow := extract_pack hinside v
  refine ⟨?_, fun hrange => ?_, fun signed i => ?_, fun g hdisjoint signed => ?_⟩
  · exact extract_unsigned_of_window hwindow
  · exact extract_signed_of_window hwindow hwidth hrange.1 hrange.2
  · rw [pack_extract, BitVec.getLsbD_and, getLsbD_mask_of_inside hinside]
  · exact extract_or_pack (mask_and_mask_of_disjoint hdisjoint) v w signed

/-- The least displacement of a relative call, below an opcode, and the word that is full. -/
theorem extract_inverts_pack_call :
    (⟨0, 12⟩ : Field).extract (pack ⟨0, 12⟩ (-2048)) false = 2048 ∧
    (⟨0, 12⟩ : Field).extract (pack ⟨0, 12⟩ (-2048)) true = -2048 ∧
    (∀ signed i, (pack ⟨0, 12⟩ ((⟨0, 12⟩ : Field).extract 0xFFFF signed)).getLsbD i =
      ((0xFFFF : Word).getLsbD i && decide (HasBit ⟨0, 12⟩ i))) ∧
    ∀ signed, (⟨12, 4⟩ : Field).extract (0xFFFF ||| pack ⟨0, 12⟩ (-2048)) signed =
      (⟨12, 4⟩ : Field).extract 0xFFFF signed := by
  obtain ⟨hunsigned, hsigned, hbits, hother⟩ :=
    extract_inverts_pack (f := ⟨0, 12⟩) (by decide) (by decide) (-2048) 0xFFFF
  refine ⟨hunsigned, hsigned (by decide), hbits, hother ⟨12, 4⟩ fun i hlow hhigh => ?_⟩
  exact absurd hlow.2 (Nat.not_lt.2 hhigh.1)

/-! ## Several fields -/

theorem foldl_pack_and {m : Word} :
    ∀ (xs : List (Slot × Operand)) (w : Word), (∀ x ∈ xs, x.1.field.mask &&& m = 0#16) →
      xs.foldl (fun w (slot, operand) => w ||| slot.field.pack operand.value) w &&& m = w &&& m
  | [], _, _ => rfl
  | (s, o) :: xs, w, h => by
    rw [List.foldl_cons, foldl_pack_and xs _ fun x hx => h x (List.mem_cons_of_mem _ hx),
      BitVec.and_or_distrib_right, pack_and_of_separate (h _ List.mem_cons_self), BitVec.or_zero]

theorem extract_foldl_of_separate {f : Field} :
    ∀ (xs : List (Slot × Operand)) (w : Word), (∀ x ∈ xs, x.1.field.mask &&& f.mask = 0#16) →
      (xs.foldl (fun w (slot, operand) => w ||| slot.field.pack operand.value) w).extractLsb'
        f.shift f.width = w.extractLsb' f.shift f.width
  | [], _, _ => rfl
  | (s, o) :: xs, w, h => by
    rw [List.foldl_cons, extract_foldl_of_separate xs _ fun x hx => h x (List.mem_cons_of_mem _ hx),
      extractLsb'_or_pack (h _ List.mem_cons_self)]

/-- Each of several separate fields holds what was packed into it. -/
theorem extract_foldl_pack {slots : List Slot}
    (hsep : slots.Pairwise fun s t => s.field.mask &&& t.field.mask = 0#16)
    (hfit : ∀ s ∈ slots, s.field.shift + s.field.width ≤ 16) :
    ∀ {operands : List Operand} {w : Word}, slots.length = operands.length →
      (∀ s ∈ slots, w &&& s.field.mask = 0#16) →
      List.Forall₂ (fun (s : Slot) (o : Operand) =>
        ((slots.zip operands).foldl (fun w (slot, operand) => w ||| slot.field.pack operand.value)
          w).extractLsb' s.field.shift s.field.width = BitVec.ofInt s.field.width o.value)
        slots operands := by
  induction slots with
  | nil =>
    intro operands w hlen _
    cases operands with
    | nil => exact .nil
    | cons => cases hlen
  | cons s slots ih =>
    intro operands w hlen hw
    cases operands with
    | nil => cases hlen
    | cons o operands =>
      obtain ⟨hs, hsep⟩ := List.pairwise_cons.1 hsep
      refine .cons ?_
        (ih hsep (fun t ht => hfit t (List.mem_cons_of_mem _ ht)) (Nat.succ.inj hlen) ?_)
      · rw [List.zip_cons_cons, List.foldl_cons, extract_foldl_of_separate, BitVec.extractLsb'_or,
          extract_pack (hfit s List.mem_cons_self),
          extractLsb'_of_and_mask (hw s List.mem_cons_self),
          BitVec.zero_or]
        intro x hx
        rw [BitVec.and_comm]
        exact hs x.1 (List.of_mem_zip hx).1
      · intro t ht
        rw [BitVec.and_or_distrib_right, hw t (List.mem_cons_of_mem _ ht),
          pack_and_of_separate (hs t ht), BitVec.or_zero]

/-! ## Fields in a register -/

/-- The low bits of a register, as many as the window has. -/
def lowMask (f : Field) : BitVec 32 := (1#32 <<< f.width) - 1#32

theorem toNat_lowMask {f : Field} (h : f.width < 32) : f.lowMask.toNat = 2 ^ f.width - 1 := by
  have hpow : 2 ^ f.width < 2 ^ 32 := Nat.pow_lt_pow_right (by decide) h
  have hpos := Nat.two_pow_pos f.width
  have hshift : (1#32 <<< f.width).toNat = 2 ^ f.width := by
    rw [BitVec.toNat_shiftLeft, BitVec.toNat_one (by decide), Nat.one_shiftLeft,
      Nat.mod_eq_of_lt hpow]
  rw [lowMask, BitVec.toNat_sub, hshift, BitVec.toNat_one (by decide)]
  omega

theorem and_lowMask {f : Field} (h : f.width < 32) (x : BitVec 32) :
    x &&& f.lowMask = (x.setWidth f.width).setWidth 32 := by
  have hpow : 2 ^ f.width < 2 ^ 32 := Nat.pow_lt_pow_right (by decide) h
  have hmod : x.toNat % 2 ^ f.width < 2 ^ f.width := Nat.mod_lt _ (Nat.two_pow_pos _)
  apply BitVec.eq_of_toNat_eq
  rw [BitVec.toNat_and, toNat_lowMask h, Nat.and_two_pow_sub_one_eq_mod, BitVec.toNat_setWidth,
    BitVec.toNat_setWidth, Nat.mod_eq_of_lt (Nat.lt_trans hmod hpow)]

/-- A number is packed by masking its pattern and shifting it up; what is shifted out of the word is
lost. -/
theorem pack_eq_masked {f : Field} (h : f.width < 32) (v : Int) :
    f.pack v = ((BitVec.ofInt 32 v &&& f.lowMask) <<< f.shift).setWidth 16 := by
  have hle := Nat.le_of_lt h
  have hlow : (BitVec.ofInt 32 v).setWidth f.width = BitVec.ofInt f.width v := by
    apply BitVec.eq_of_toInt_eq
    rw [← BitVec.signExtend_eq_setWidth_of_le _ hle, BitVec.toInt_signExtend, Nat.min_eq_left hle,
      BitVec.toInt_ofInt, BitVec.toInt_ofInt, Int.bmod_bmod_of_dvd (Nat.pow_dvd_pow 2 hle)]
  rw [and_lowMask h, hlow, BitVec.setWidth_shiftLeft_of_le (by decide), pack,
    BitVec.setWidth_setWidth_of_le _ (by decide)]

theorem shiftRight_and_lowMask {f : Field} (h : f.width < 32) (w : Word) :
    w.setWidth 32 >>> f.shift &&& f.lowMask = (w.extractLsb' f.shift f.width).setWidth 32 := by
  rw [and_lowMask h]
  apply BitVec.eq_of_getLsbD_eq
  intro i _
  by_cases hlt : f.shift + i < 32
  · simp [hlt]
  · simp [hlt, BitVec.getLsbD_of_ge w (f.shift + i) (by omega)]

/-- A number gets its sign by way of the top of a register. -/
theorem sshiftRight_shiftLeft {n : Nat} (hpos : 0 < n) (hn : n ≤ 32) (x : BitVec n) :
    (x.setWidth 32 <<< (32 - n)).sshiftRight (32 - n) = x.signExtend 32 := by
  have hbit : ∀ i < n, (x.setWidth 32 <<< (32 - n)).getLsbD (32 - n + i) = x.getLsbD i := by
    intro i hi
    have htop : 32 - n + i < 32 := by omega
    have hlow : i < 32 := by omega
    rw [BitVec.getLsbD_shiftLeft, BitVec.getLsbD_setWidth, Nat.add_sub_cancel_left]
    simp [htop, hlow]
  -- the sign of the number is now the sign of the register
  have hmsb : (x.setWidth 32 <<< (32 - n)).msb = x.msb := by
    rw [BitVec.msb_eq_getLsbD_last, BitVec.msb_eq_getLsbD_last, ← hbit (n - 1) (by omega)]
    congr 1
    omega
  apply BitVec.eq_of_getLsbD_eq
  intro i hi
  rw [BitVec.getLsbD_sshiftRight, BitVec.getLsbD_signExtend, hmsb]
  by_cases hlt : i < n
  · rw [if_pos (by omega), if_pos hlt, hbit i hlt]
    simp [hi]
  · rw [if_neg (by omega), if_neg hlt]
    simp [hi]

/-- A field is read by shifting it down and masking it. Its sign comes from shifting it to the top
of the register and back. -/
theorem extract_eq_shifted {f : Field} (hpos : 0 < f.width) (h : f.width < 32) (w : Word) :
    f.extract w false = (w.setWidth 32 >>> f.shift &&& f.lowMask).toInt ∧
    f.extract w true = (((w.setWidth 32 >>> f.shift &&& f.lowMask) <<<
      (32 - f.width)).sshiftRight (32 - f.width)).toInt := by
  have hle := Nat.le_of_lt h
  rw [shiftRight_and_lowMask h, sshiftRight_shiftLeft hpos hle, BitVec.toInt_signExtend_of_le hle]
  refine ⟨?_, ?_⟩
  · have hpow : 2 ^ f.width ≤ 2 ^ 31 := Nat.pow_le_pow_right (by decide) (by omega)
    have hlt := (w.extractLsb' f.shift f.width).isLt
    have hnat : ((w.extractLsb' f.shift f.width).setWidth 32).toNat =
        (w.extractLsb' f.shift f.width).toNat := by
      rw [BitVec.toNat_setWidth, Nat.mod_eq_of_lt (by omega)]
    rw [extract, if_neg Bool.false_ne_true, extractUnsigned,
      BitVec.toInt_eq_toNat_of_lt (by omega), hnat]
  · rw [extract, if_pos rfl, extractSigned]

end CompactRisc.Field
