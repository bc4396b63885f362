import CompactRisc.Operand
import CompactRisc.Instruction.Catalog

/-!
# Facts about the instruction set

The names of registers and the mnemonics are unambiguous, and the jumps and calls through a register
are exactly the instructions with a short form. Each fact that is particular to this instruction set
is decided once here, over the whole catalog.
-/
namespace CompactRisc

/-! ## Registers -/

theorem Register.ofName?_name : ∀ r : Register, ofName? r.name = some r := by decide +kernel

theorem Register.ofName?_eq_some {n : String} {r : Register} : ofName? n = some r ↔ n = r.name := by
  constructor
  · intro h
    exact (List.finIdxOf?_eq_some_iff.1 h).1.symm
  · rintro rfl
    exact ofName?_name r

theorem Register.name_inj {r r' : Register} (h : r.name = r'.name) : r = r' :=
  Option.some.inj ((ofName?_name r).symm.trans ((congrArg ofName? h).trans (ofName?_name r')))

theorem readRegister_eq_ok {token : String} {r : Register} :
    readRegister token = .ok r ↔ token = r.name := by
  rw [← Register.ofName?_eq_some]
  unfold readRegister
  split <;> simp_all

theorem readRegister_name (r : Register) : readRegister r.name = .ok r := readRegister_eq_ok.2 rfl

namespace Instruction

/-! ## Mnemonics -/

theorem ofMnemonic?_mnemonic : ∀ i ∈ catalog, ofMnemonic? i.mnemonic = some i := by decide +kernel

theorem ofMnemonic?_eq_some {m : String} {i : Instruction} :
    ofMnemonic? m = some i ↔ i ∈ catalog ∧ i.mnemonic = m := by
  constructor
  · intro h
    exact ⟨List.mem_of_find?_eq_some h, by simpa using List.find?_some h⟩
  · rintro ⟨hi, rfl⟩
    exact ofMnemonic?_mnemonic i hi

theorem eq_of_mnemonic {i j : Instruction} (hi : i ∈ catalog) (hj : j ∈ catalog)
    (h : i.mnemonic = j.mnemonic) : i = j := by
  have h₁ := ofMnemonic?_mnemonic i hi
  have h₂ := ofMnemonic?_mnemonic j hj
  rw [h] at h₁
  exact Option.some.inj (h₁.symm.trans h₂)

/-- The move between registers, which also loads the address of a label. -/
def mov : Instruction := ⟨"MOV", 0b1111, some 0b0001, .destSource⟩

/-- The instruction that loads the low byte of a register. -/
def movil : Instruction := ⟨"MOVIL", 0b1010, none, .destByte⟩

/-- The instruction that loads the high byte of a register. -/
def moviu : Instruction := ⟨"MOVIU", 0b1011, none, .destByte⟩

theorem moves_mem_catalog : mov ∈ catalog ∧ movil ∈ catalog ∧ moviu ∈ catalog := by decide +kernel

theorem eq_mov_of_mnemonic {i : Instruction} (hi : i ∈ catalog) (h : i.mnemonic = "MOV") :
    i = mov := eq_of_mnemonic hi moves_mem_catalog.1 h

/-! ## Short forms -/

/-- The transfers through a register: the jumps and the call. -/
def isTransfer (i : Instruction) : Bool :=
  match i.shape with
  | .jump _ | .call => true
  | _ => false

theorem isTransfer_eq : ∀ i ∈ catalog, i.isTransfer = i.shortForm?.isSome := by decide +kernel

/-- The short form of a jump is the branch on the same condition, and that of the call the relative
call. -/
theorem shortForm?_eq_some {i short : Instruction} (h : i.shortForm? = some short) :
    short ∈ catalog ∧ ((∃ c, i.shape = .jump c ∧ short.shape = .branch c) ∨
      (i.shape = .call ∧ short.shape = .callNear)) := by
  unfold shortForm? at h
  split at h
  · rename_i c hc
    exact ⟨List.mem_of_find?_eq_some h, Or.inl ⟨c, hc, by simpa using List.find?_some h⟩⟩
  · rename_i hc
    exact ⟨List.mem_of_find?_eq_some h, Or.inr ⟨hc, by simpa using List.find?_some h⟩⟩
  · cases h

theorem isTransfer_of_shortForm? {i short : Instruction} (h : i.shortForm? = some short) :
    i.isTransfer = true := by
  rcases (shortForm?_eq_some h).2 with ⟨c, hc, -⟩ | ⟨hc, -⟩ <;> simp [isTransfer, hc]

theorem slots_of_isTransfer {i : Instruction} (h : i.isTransfer = true) :
    i.slots = [.register (Shape.lowField 4)] := by
  unfold isTransfer at h
  split at h
  · rename_i hs
    simp [slots, hs, Shape.slots]
  · rename_i hs
    simp [slots, hs, Shape.slots]
  · cases h

end Instruction

end CompactRisc
