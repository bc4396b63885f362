import CompactRisc.Proofs.Reassembly

/-!
# Words that are taken apart and put together again

Decoding and assembling an instruction are inverse to each other: what is assembled is decoded to
the operands that were written, and what can be decoded is written as text that is assembled to the
same word.

Results:
* `Slot.accepts_extract`: whatever a word holds in a slot can be written there.
* `Decoded.readOperands_tokens`: the operands of a word are read back from their text.
* `Decoded.ofWord?_inverts_assemble`: the words that are decoded are the words of the instruction
  set, and nothing is lost on the way but the sign of a byte.
* `assemble_disassembly`: words that are all decoded are assembled again from their texts.
-/
namespace CompactRisc

/-! ## Operands of a word -/

namespace Slot

/-- The slot admits every number that its field can hold. -/
def Covers : Slot → Prop
  | register _ => True
  | immediate least greatest f =>
    if (immediate least greatest f).isSigned then
      0 < f.width ∧ least ≤ -(2 ^ (f.width - 1)) ∧ 2 ^ (f.width - 1) - 1 ≤ greatest
    else least ≤ 0 ∧ 2 ^ f.width - 1 ≤ greatest

instance : DecidablePred Covers
  | register _ => inferInstanceAs (Decidable True)
  | immediate least greatest f => inferInstanceAs (Decidable
      (if (immediate least greatest f).isSigned then
        0 < f.width ∧ least ≤ -(2 ^ (f.width - 1)) ∧ 2 ^ (f.width - 1) - 1 ≤ greatest
      else least ≤ 0 ∧ 2 ^ f.width - 1 ≤ greatest))

theorem accepts_extract {s : Slot} (h : s.Covers) (w : Word) : s.Accepts (s.extract w) := by
  cases s with
  | register f => trivial
  | immediate least greatest f =>
    simp only [Covers] at h
    simp only [Accepts, extract, Field.extract]
    split at h
    · rename_i hsigned
      obtain ⟨hwidth, hleast, hgreatest⟩ := h
      have hlow := BitVec.le_toInt (w.extractLsb' f.shift f.width)
      have hhigh := BitVec.toInt_lt (x := w.extractLsb' f.shift f.width)
      rw [if_pos hsigned, Field.extractSigned]
      omega
    · rename_i hsigned
      obtain ⟨hleast, hgreatest⟩ := h
      have hhigh : ((w.extractLsb' f.shift f.width).toNat : Int) < 2 ^ f.width :=
        mod_cast (w.extractLsb' f.shift f.width).isLt
      rw [if_neg hsigned, Field.extractUnsigned]
      omega

/-- The numbers that the slot admits can be written as literals. -/
def Writable : Slot → Prop
  | register _ => True
  | immediate least greatest _ => Literal.fits32 least = true ∧ Literal.fits32 greatest = true

instance : DecidablePred Writable
  | register _ => inferInstanceAs (Decidable True)
  | immediate _ _ _ => inferInstanceAs (Decidable (_ ∧ _))

theorem fits32_of_accepts {s : Slot} (h : s.Writable) {v : Int}
    (haccepts : s.Accepts (.immediate v)) : Literal.fits32 v = true := by
  cases s with
  | register f => cases haccepts
  | immediate least greatest f =>
    obtain ⟨hleast, hgreatest⟩ := haccepts
    simp only [Writable, Literal.fits32, Bool.and_eq_true, decide_eq_true_eq] at h ⊢
    omega

end Slot

theorem Instruction.slot_covers : ∀ i ∈ catalog, ∀ s ∈ i.slots, s.Covers ∧ s.Writable := by
  decide +kernel

theorem Shape.byte_nonneg {s : Slot} (hs : s ∈ destByte.slots) {w : Word} {v : Int}
    (h : s.extract w = .immediate v) : 0 ≤ v := by
  simp only [slots, List.mem_cons, List.not_mem_nil, or_false] at hs
  rcases hs with rfl | rfl
  · cases h
  · cases h
    exact Int.natCast_nonneg _

/-! ## Operands that are read back -/

/-- An operand that was written, as it comes back from the word of an instruction of this shape. -/
def Operand.readBack (shape : Shape) : Operand → Operand
  | register r => .register r
  | immediate v => .immediate (if shape = .destByte ∧ v < 0 then v + 256 else v)

theorem Shape.canonical_eq {shape : Shape} {s : Slot} (hs : s ∈ shape.slots) {o : Operand}
    (h : s.Accepts o) : s.canonical o = o.readBack shape := by
  cases o with
  | register r => rfl
  | immediate v =>
    rw [Slot.canonical, Operand.readBack]
    congr 1
    cases shape <;> simp only [slots, List.mem_cons, List.not_mem_nil, or_false] at hs
    case destByte =>
      rcases hs with rfl | rfl
      · cases h
      · obtain ⟨hleast, hgreatest⟩ := h
        have hmod : v % 256 = if v < 0 then v + 256 else v := by split <;> omega
        simpa [Slot.isSigned, Slot.field, lowField] using hmod
    case destNibble =>
      rcases hs with rfl | rfl
      · cases h
      · obtain ⟨hleast, hgreatest⟩ := h
        have hmod : v % 16 = v := by omega
        simpa [Slot.isSigned, Slot.field, lowField] using hmod
    case branch | callNear =>
      subst hs
      simp [Slot.isSigned, lowField]
    case destSource => rcases hs with rfl | rfl <;> cases h
    all_goals
      rw [hs] at h
      cases h

/-- The operands of an instruction come back as they were written, up to the sign of a byte. -/
theorem Instruction.zipWith_canonical {i : Instruction} {operands : List Operand}
    (h : List.Forall₂ Slot.Accepts i.slots operands) :
    List.zipWith Slot.canonical i.slots operands = operands.map (Operand.readBack i.shape) := by
  have hall : List.Forall₂ (fun s o => s ∈ i.shape.slots ∧ s.Accepts o) i.slots operands :=
    (List.forall₂_and_left _ _).2 ⟨fun s hs => hs, h⟩
  clear h
  generalize i.slots = slots at hall ⊢
  induction hall with
  | nil => rfl
  | cons hso _ ih => rw [List.zipWith_cons_cons, Shape.canonical_eq hso.1 hso.2, ih, List.map_cons]

/-! ## Texts that are read back -/

namespace Decoded

theorem read?_operandText {shape : Shape} {v : Int} (hfits : Literal.fits32 v = true)
    (hbyte : shape = .destByte → 0 ≤ v) (k : Nat) :
    Literal.read? (operandText shape (.immediate v, k)) = some v := by
  have hdecimal := Literal.read?_decimal hfits
  unfold operandText
  split
  · rename_i v' he
    cases he
    split
    · rename_i hshape
      have hgreatest : v ≤ 2147483647 := by simp [Literal.fits32] at hfits; exact hfits.2
      have hpattern := Literal.toNat_ofInt_of_nonneg (hbyte hshape) hfits
      rw [Literal.read?_hexadecimal 2 (by omega), hpattern]
    · exact hdecimal
  · rename_i he
    cases he
    exact hdecimal

theorem read_operandText {i : Instruction} (hi : i ∈ Instruction.catalog) {s : Slot}
    (hs : s ∈ i.slots) (w : Word) (k : Nat) :
    s.read (operandText i.shape (s.extract w, k)) = .ok (s.extract w) := by
  obtain ⟨hcovers, hwritable⟩ := Instruction.slot_covers i hi s hs
  have haccepts := Slot.accepts_extract hcovers w
  cases s with
  | register f => exact Slot.read_register f _
  | immediate least greatest f =>
    have hread : Literal.read?
        (operandText i.shape ((Slot.immediate least greatest f).extract w, k)) = _ :=
      read?_operandText (Slot.fits32_of_accepts hwritable haccepts)
        (fun hshape => Shape.byte_nonneg (by rwa [Instruction.slots, hshape] at hs) rfl) k
    exact Slot.read_immediate f hread haccepts.1 haccepts.2

def tokens (D : Decoded) : List String :=
  D.instruction.mnemonic :: D.operands.zipIdx.map (operandText D.instruction.shape)

theorem forall₂_read {i : Instruction} (hi : i ∈ Instruction.catalog) (w : Word) :
    ∀ {slots : List Slot}, (∀ s ∈ slots, s ∈ i.slots) → ∀ k,
      List.Forall₂ (fun x o => x.1.read x.2 = .ok o)
        (slots.zip (((slots.map (·.extract w)).zipIdx k).map (operandText i.shape)))
        (slots.map (·.extract w))
  | [], _, _ => .nil
  | s :: slots, hs, k => by
    obtain ⟨hs, hslots⟩ := List.forall_mem_cons.1 hs
    exact .cons (read_operandText hi hs w k) (forall₂_read hi w hslots (k + 1))

theorem readOperands_tokens {i : Instruction} (hi : i ∈ Instruction.catalog) (w : Word) :
    i.readOperands (tokens ⟨i, i.extract w⟩) = .ok (i.extract w) := by
  have hlength : (tokens ⟨i, i.extract w⟩).length = i.slots.length + 1 := by
    simp [tokens, Instruction.extract]
  unfold Instruction.readOperands
  rw [if_pos hlength, mapM_eq_ok]
  exact forall₂_read hi w (fun s hs => hs) 0

theorem ofWord?_eq_some {w : Word} {D : Decoded} (h : ofWord? w = some D) :
    D.instruction ∈ Instruction.catalog ∧ D.operands = D.instruction.extract w ∧ D.encode = w := by
  obtain ⟨i, hi, hD⟩ := Option.bind_eq_some_iff.1 h
  dsimp only at hD
  split at hD
  · rename_i hencode
    cases hD
    exact ⟨List.mem_of_find?_eq_some hi, rfl, hencode⟩
  · cases hD

theorem assemble_tokens {w : Word} {D : Decoded} (h : ofWord? w = some D) :
    D.instruction.assemble D.tokens = .ok w := by
  obtain ⟨hi, hoperands, hencode⟩ := ofWord?_eq_some h
  have hread := readOperands_tokens hi w
  rw [← hoperands] at hread
  rw [Instruction.assemble, hread]
  exact congrArg Except.ok hencode

end Decoded

/-! ## The words of the instruction set -/

/-- The instruction that an alias is decoded to. -/
def Instruction.or : Instruction := ⟨"OR", 0b0000, some 0b0111, .destSource⟩

/-- An alias has no operands, and the word of `OR r0 r0`. -/
theorem Decoded.ofWord?_alias : ∀ i ∈ Instruction.catalog, i.isAlias = true → i.slots = [] ∧
    ofWord? (i.encode []) = some ⟨.or, [.register .r0, .register .r0]⟩ := by
  decide +kernel

theorem Decoded.ofWord?_of_readOperands {i : Instruction} (hi : i ∈ Instruction.catalog)
    {tokens : List String} {operands : List Operand} (h : i.readOperands tokens = .ok operands) :
    ofWord? (i.encode operands) =
      some (if i.isAlias then ⟨.or, [.register .r0, .register .r0]⟩
        else ⟨i, operands.map (Operand.readBack i.shape)⟩) := by
  have haccepts := Instruction.accepts_of_readOperands h
  split
  · rename_i halias
    obtain ⟨hslots, hword⟩ := ofWord?_alias i hi halias
    rw [hslots] at haccepts
    cases haccepts
    exact hword
  · rename_i halias
    rw [ofWord?_encode hi (by simpa using halias) haccepts, Instruction.zipWith_canonical haccepts]

/-- Decoding inverts the assembler of instructions and takes exactly the words that it makes. -/
theorem Decoded.ofWord?_inverts_assemble :
    (∀ i ∈ Instruction.catalog, ∀ tokens operands, i.readOperands tokens = .ok operands →
      ofWord? (i.encode operands) =
        some (if i.isAlias then ⟨.or, [.register .r0, .register .r0]⟩
          else ⟨i, operands.map (Operand.readBack i.shape)⟩)) ∧
    ∀ w, ((∃ D, ofWord? w = some D) ↔ ∃ mnemonic i tokens,
        Instruction.ofMnemonic? mnemonic = some i ∧ i.assemble (mnemonic :: tokens) = .ok w) ∧
      ∀ D, ofWord? w = some D → D.encode = w := by
  refine ⟨fun i hi tokens operands h => ofWord?_of_readOperands hi h, fun w => ⟨⟨?_, ?_⟩, ?_⟩⟩
  · intro h
    obtain ⟨D, hD⟩ := h
    have hmnemonic := Instruction.ofMnemonic?_mnemonic _ (ofWord?_eq_some hD).1
    exact ⟨_, D.instruction, _, hmnemonic, assemble_tokens hD⟩
  · intro h
    obtain ⟨mnemonic, i, tokens, hi, hw⟩ := h
    obtain ⟨operands, hread, rfl⟩ := map_eq_ok.1 hw
    exact ⟨_, ofWord?_of_readOperands (Instruction.ofMnemonic?_eq_some.1 hi).1 hread⟩
  · intro D hD
    exact (ofWord?_eq_some hD).2.2

/-- A negative byte, which comes back without its sign, and the word of the alias. -/
theorem Decoded.ofWord?_inverts_assemble_byte :
    Instruction.movil ∈ Instruction.catalog ∧
      Instruction.movil.readOperands ["MOVIL", "rsp", "-1"] =
        .ok [.register 15, .immediate (-1)] ∧
      ofWord? (Instruction.movil.encode [.register 15, .immediate (-1)]) =
        some ⟨.movil, [.register 15, .immediate 255]⟩ ∧
      ∃ mnemonic i tokens, Instruction.ofMnemonic? mnemonic = some i ∧
        i.assemble (mnemonic :: tokens) = .ok 0x0070#16 := by
  refine ⟨by decide +kernel, by decide +kernel, ?_, ?_⟩
  · exact ofWord?_inverts_assemble.1 _ (by decide +kernel) ["MOVIL", "rsp", "-1"] _
      (by decide +kernel)
  · exact (ofWord?_inverts_assemble.2 0x0070#16).1.1
      ⟨⟨.or, [.register 0, .register 0]⟩, by decide +kernel⟩

/-! ## Texts of words -/

theorem Decoded.plain_operandText (shape : Shape) (x : Operand × Nat) :
    Source.Plain {} (operandText shape x) := by
  have htext : ∀ o : Operand, Source.Plain {} o.text := by
    intro o
    cases o with
    | register r => exact Source.plain_register r
    | immediate v => exact Source.plain_decimal v
  unfold operandText
  split
  · split
    · exact Source.plain_hexadecimal _ _
    · exact Source.plain_decimal _
  · exact htext _

theorem Decoded.plain_tokens {D : Decoded} (h : D.instruction ∈ Instruction.catalog) :
    ∀ t ∈ D.tokens, Source.Plain {} t := by
  rw [tokens, List.forall_mem_cons]
  refine ⟨Source.plain_mnemonic _ h, fun t ht => ?_⟩
  obtain ⟨x, -, rfl⟩ := List.mem_map.1 ht
  exact plain_operandText _ x

theorem Decoded.encodes_tokens {w : Word} {D : Decoded} (h : ofWord? w = some D) :
    Line.Encodes D.tokens w := by
  intro source
  have hmnemonic := Instruction.ofMnemonic?_mnemonic _ (ofWord?_eq_some h).1
  exact Line.encode_eq_ok.2 (Or.inl ⟨D.instruction, hmnemonic, assemble_tokens h⟩)

/-- Words that are all decoded are assembled again from their texts, one on each line. -/
theorem assemble_disassembly {words : List Word} {decoded : List Decoded}
    (h : words.map Decoded.ofWord? = decoded.map some) :
    ∃ A, assemble {} ("\n".intercalate (decoded.map Decoded.text)) = .ok A ∧ A.words = words ∧
      A.symbols = [] ∧ A.warnings = [] := by
  have hall : List.Forall₂ (fun w D => Decoded.ofWord? w = some D) words decoded := by
    rw [← List.forall₂_eq_eq_eq, List.forall₂_map_left_iff, List.forall₂_map_right_iff] at h
    exact h
  have hplain : ∀ t ∈ decoded.map Decoded.tokens, t ≠ [] ∧ ∀ x ∈ t, Source.Plain {} x := by
    intro t ht
    obtain ⟨D, hD, rfl⟩ := List.mem_map.1 ht
    obtain ⟨k, hk⟩ := List.getElem?_of_mem hD
    obtain ⟨w, -, hw⟩ := getElem?_left_of_forall₂ hall hk
    exact ⟨List.cons_ne_nil _ _, Decoded.plain_tokens (Decoded.ofWord?_eq_some hw).1⟩
  have htext : decoded.map Decoded.text =
      (decoded.map Decoded.tokens).map " ".intercalate := by
    rw [List.map_map]
    rfl
  have hlines := Source.lines_listing (d := {}) fun t ht =>
    Source.legible_of_plain (hplain t ht).1 (hplain t ht).2
  rw [← htext] at hlines
  have hencodes : List.Forall₂ Line.Encodes (decoded.map Decoded.tokens) words := by
    rw [List.forall₂_map_left_iff]
    exact hall.flip.imp fun D w hw => Decoded.encodes_tokens hw
  obtain ⟨A, hA, hwords, -, hsymbols, hwarnings⟩ := assemble_numbered hlines
    (fun t ht => ⟨(hplain t ht).1, Source.filter_isLabel_of_plain (hplain t ht).2⟩) hencodes
  exact ⟨A, hA, hwords, hsymbols, hwarnings⟩

/-- A byte, a displacement back, a shift count and an instruction without operands. -/
theorem assemble_disassembly_mixed : ∃ decoded : List Decoded,
    [0xAFFF#16, 0xC1FF#16, 0xF508#16, 0xF040#16].map Decoded.ofWord? = decoded.map some ∧
    "\n".intercalate (decoded.map Decoded.text) = "MOVIL rsp 0xff\nBNE -1\nARSHI r5 8\nRET" ∧
    ∃ A, assemble {} "MOVIL rsp 0xff\nBNE -1\nARSHI r5 8\nRET" = .ok A ∧
      A.words = [0xAFFF#16, 0xC1FF#16, 0xF508#16, 0xF040#16] ∧ A.symbols = [] ∧
      A.warnings = [] := by
  obtain ⟨decoded, hdecoded, htext⟩ : ∃ decoded : List Decoded,
      [0xAFFF#16, 0xC1FF#16, 0xF508#16, 0xF040#16].map Decoded.ofWord? = decoded.map some ∧
      "\n".intercalate (decoded.map Decoded.text) = "MOVIL rsp 0xff\nBNE -1\nARSHI r5 8\nRET" :=
    ⟨[⟨.movil, [.register 15, .immediate 255]⟩,
      ⟨⟨"BNE", 0b1100, none, .branch .notEqual⟩, [.immediate (-1)]⟩,
      ⟨⟨"ARSHI", 0b1111, some 0b0000, .destNibble⟩, [.register 5, .immediate 8]⟩,
      ⟨⟨"RET", 0b1111, some 0b0100, .ret⟩, []⟩], by decide +kernel, by decide +kernel⟩
  have h := assemble_disassembly hdecoded
  rw [htext] at h
  exact ⟨decoded, hdecoded, htext, h⟩

end CompactRisc
