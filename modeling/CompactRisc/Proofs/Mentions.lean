import CompactRisc.Reference
import CompactRisc.Proofs.Catalog
import CompactRisc.Proofs.Fallible

/-!
# Mentions of labels

What a line has to look like for its mention of a label to be taken, in terms of its tokens alone.
`Line.use` reads the mention and how the line uses it in one step.

Results:
* `Line.use_eq_none`: nothing is read from a line exactly if no token of it is a label.
* `Line.uses_of_use`, `Line.use_of_uses`: a line that does not itself start with a label is read
  exactly in the ways that `Line.Uses` lists, a move to a register and a jump or call by way of
  one.
-/
namespace CompactRisc

/-- A label that a line mentions, and how it uses the address. -/
structure Use where
  label : Label
  load : AddressLoad
  deriving DecidableEq, Repr

namespace Line

/-- The tokens of a line that are labels or references to labels. -/
def labelTokens (d : Dialect) (l : Line) : List String := l.tokens.filter d.isLabel

/-- The mention on a line, if there is one, and how the line uses it. -/
def use (d : Dialect) (labels : Array Label) (l : Line) : Except Fault (Option Use) := do
  match ← Mention.find d labels l with
  | none => return none
  | some m =>
    let load ← m.load d l
    return some ⟨m.label, load⟩

end Line

namespace Mention

/-- The token is the name of a label, with the register after the separator if there is one. -/
def Names (d : Dialect) (labels : Array Label) (token : String) (label : Label)
    (loading : Option Register) : Prop :=
  token.toList.splitOn d.loadSeparator =
      label.name.toList :: (loading.map fun r => r.name.toList).toList ∧
    labels.find? (·.name == label.name) = some label

theorem findLabel_eq_ok {labels : Array Label} {l : Line} {token : String} {name : List Char}
    {label : Label} : findLabel labels l token name = .ok label ↔
      name = label.name.toList ∧ labels.find? (·.name == label.name) = some label := by
  unfold findLabel
  split
  · rename_i label' hf
    have hn : label'.name = String.ofList name := by simpa using Array.find?_some hf
    simp only [Except.ok.injEq]
    refine ⟨fun h => ?_, fun h => ?_⟩
    · subst h
      exact ⟨by rw [hn, String.toList_ofList], by rw [hn]; exact hf⟩
    · rw [h.1, String.ofList_toList] at hf
      exact Option.some.inj (hf.symm.trans h.2)
  · rename_i hf
    refine ⟨fun h => (by cases h), fun h => ?_⟩
    rw [h.1, String.ofList_toList, h.2] at hf
    cases hf

theorem atLine_eq_ok {α : Type} {n : Nat} {x : Except OperandError α} {a : α} :
    Fault.atLine n x = .ok a ↔ x = .ok a := by
  cases x <;> simp [Fault.atLine, Except.mapError]

theorem read_eq_ok {d : Dialect} {labels : Array Label} {l : Line} {token : String} {index : Nat}
    {m : Mention} : read d labels l token index = .ok m ↔
      m.token = index ∧ Names d labels token m.label m.loading := by
  obtain ⟨index', label, loading⟩ := m
  unfold read Names
  split
  · rename_i name hs
    simp only [hs, bind_eq_ok, findLabel_eq_ok, pure_eq_ok, Except.ok.injEq, mk.injEq,
      List.cons.injEq]
    refine ⟨fun h => ?_, fun h => ?_⟩
    · obtain ⟨label', ⟨rfl, hf⟩, rfl, rfl, rfl⟩ := h
      exact ⟨rfl, ⟨rfl, rfl⟩, hf⟩
    · obtain ⟨rfl, ⟨rfl, hl⟩, hf⟩ := h
      cases loading with
      | none => exact ⟨label, ⟨rfl, hf⟩, rfl, rfl, rfl⟩
      | some r => cases hl
  · rename_i name register hs
    simp only [hs, bind_eq_ok, findLabel_eq_ok, atLine_eq_ok, readRegister_eq_ok, pure_eq_ok,
      Except.ok.injEq, mk.injEq, List.cons.injEq]
    refine ⟨fun h => ?_, fun h => ?_⟩
    · obtain ⟨label', ⟨rfl, hf⟩, r, hr, rfl, rfl, rfl⟩ := h
      refine ⟨rfl, ⟨rfl, ?_⟩, hf⟩
      simp [← hr]
    · obtain ⟨rfl, ⟨rfl, hl⟩, hf⟩ := h
      cases loading with
      | none => cases hl
      | some r =>
        simp only [Option.map_some, Option.toList_some, List.cons.injEq, and_true] at hl
        exact ⟨label, ⟨rfl, hf⟩, r, by rw [hl, String.ofList_toList], rfl, rfl, rfl⟩
  · rename_i h₁ h₂
    refine ⟨fun h => (by cases h), fun h => ?_⟩
    obtain ⟨-, hs, -⟩ := h
    cases loading with
    | none => exact absurd hs (h₁ _)
    | some r => exact absurd hs (h₂ _ _)

/-! ## The mention on a line -/

/-- After a mention has been found, the rest of the line must be free of labels. -/
theorem foldlM_step_some {d : Dialect} {labels : Array Label} {l : Line} {m : Mention} :
    ∀ {tokens : List String} {k : Nat} {found : Option Mention},
      (tokens.zipIdx k).foldlM (step d labels l) (some m) = .ok found ↔
        found = some m ∧ tokens.filter d.isLabel = []
  | [], k, found => by simp [eq_comm]
  | token :: tokens, k, found => by
    rw [List.zipIdx_cons, List.foldlM_cons]
    cases ht : d.isLabel token with
    | false =>
      rw [show step d labels l (some m) (token, k) = .ok (some m) by simp [step, ht], ok_bind,
        foldlM_step_some]
      simp [ht]
    | true =>
      rw [show step d labels l (some m) (token, k) = .error ⟨.severalReferences, l.source⟩ by
        simp [step, ht]]
      simp [ht]

/-- A line without labels has no mention, and one with a single label has the mention that its token
is read as. -/
theorem foldlM_step_none {d : Dialect} {labels : Array Label} {l : Line} :
    ∀ {tokens : List String} {k : Nat} {found : Option Mention},
      (tokens.zipIdx k).foldlM (step d labels l) none = .ok found ↔
        (found = none ∧ tokens.filter d.isLabel = []) ∨
          ∃ A token B m, tokens = A ++ token :: B ∧ A.filter d.isLabel = [] ∧
            d.isLabel token = true ∧ B.filter d.isLabel = [] ∧
            read d labels l token (k + A.length) = .ok m ∧ found = some m
  | [], k, found => by cases found <;> simp
  | token :: tokens, k, found => by
    rw [List.zipIdx_cons, List.foldlM_cons]
    cases ht : d.isLabel token with
    | false =>
      rw [show step d labels l none (token, k) = .ok none by simp [step, ht], ok_bind,
        foldlM_step_none]
      refine or_congr (by simp [ht]) ⟨fun h => ?_, fun h => ?_⟩
      · obtain ⟨A, t, B, m, rfl, hA, hB, h, hm, hf⟩ := h
        refine ⟨token :: A, t, B, m, rfl, by simp [ht, hA], hB, h, ?_, hf⟩
        rw [List.length_cons, ← hm]
        congr 1
        omega
      · obtain ⟨A, t, B, m, he, hA, hB, h, hm, hf⟩ := h
        cases A with
        | nil =>
          cases he
          rw [ht] at hB
          cases hB
        | cons a A =>
          cases he
          refine ⟨A, t, B, m, rfl, by simpa [ht] using hA, hB, h, ?_, hf⟩
          rw [← hm, List.length_cons]
          congr 1
          omega
    | true =>
      rw [show step d labels l none (token, k) = some <$> read d labels l token k by
        simp [step, ht]]
      simp only [bind_eq_ok, map_eq_ok]
      refine ⟨fun h => ?_, fun h => ?_⟩
      · obtain ⟨x, ⟨m, hm, rfl⟩, h⟩ := h
        obtain ⟨rfl, hB⟩ := foldlM_step_some.1 h
        exact Or.inr ⟨[], token, tokens, m, rfl, rfl, ht, hB, hm, rfl⟩
      · rcases h with ⟨-, h⟩ | ⟨A, t, B, m, he, hA, hB, h, hm, rfl⟩
        · simp [ht] at h
        · cases A with
          | nil =>
            cases he
            exact ⟨some m, ⟨m, hm, rfl⟩, foldlM_step_some.2 ⟨rfl, h⟩⟩
          | cons a A =>
            cases he
            simp [ht] at hA

theorem find_eq_none {d : Dialect} {labels : Array Label} {l : Line} :
    find d labels l = .ok none ↔ l.labelTokens d = [] := by
  unfold find Line.labelTokens
  rw [foldlM_step_none]
  simp

theorem find_eq_some {d : Dialect} {labels : Array Label} {l : Line} {m : Mention} :
    find d labels l = .ok (some m) ↔
      ∃ A token B, l.tokens = A ++ token :: B ∧ l.labelTokens d = [token] ∧ d.isLabel token = true ∧
        m.token = A.length ∧ Names d labels token m.label m.loading := by
  unfold find Line.labelTokens
  rw [foldlM_step_none]
  simp only [reduceCtorEq, false_and, false_or, Option.some.injEq, Nat.zero_add]
  refine ⟨fun h => ?_, fun h => ?_⟩
  · obtain ⟨A, token, B, m', he, hA, ht, hB, hm, rfl⟩ := h
    exact ⟨A, token, B, he, by simp [he, hA, hB, ht], ht, read_eq_ok.1 hm⟩
  · obtain ⟨A, token, B, he, hl, ht, hm⟩ := h
    rw [he, List.filter_append, List.filter_cons, if_pos ht] at hl
    obtain ⟨hA, hB⟩ : A.filter d.isLabel = [] ∧ B.filter d.isLabel = [] := by
      have := congrArg List.length hl
      simp only [List.length_append, List.length_cons, List.length_nil] at this
      exact ⟨List.length_eq_zero_iff.1 (by omega), List.length_eq_zero_iff.1 (by omega)⟩
    exact ⟨A, token, B, m, he, hA, ht, hB, read_eq_ok.2 hm, rfl⟩

/-! ## The use of a mention -/

theorem exists_readOperands {i : Instruction} {tokens : List String} :
    (∃ ops, i.readOperands tokens = .ok ops) ↔ tokens.length = i.slots.length + 1 ∧
      ∀ x ∈ i.slots.zip tokens.tail, ∃ op, x.1.read x.2 = .ok op := by
  unfold Instruction.readOperands
  split
  · rename_i h
    rw [exists_mapM_eq_ok]
    simp [h]
  · rename_i h
    simp [h]

theorem exists_read_register {f : Field} {token : String} :
    (∃ op, (Slot.register f).read token = .ok op) ↔ ∃ r : Register, token = r.name := by
  simp only [Slot.read, map_eq_ok, readRegister_eq_ok]
  refine ⟨fun h => ?_, fun h => ?_⟩
  · obtain ⟨op, r, hr, -⟩ := h
    exact ⟨r, hr⟩
  · obtain ⟨r, hr⟩ := h
    exact ⟨_, r, hr, rfl⟩

theorem instruction_eq_ok {m : Mention} {l : Line} {i : Instruction} :
    m.instruction l = .ok i ↔ (i ∈ Instruction.catalog ∧ i.mnemonic = l.first) ∧
      ∃ ops, i.readOperands (l.tokens.set m.token Register.r0.name) = .ok ops := by
  rw [← Instruction.ofMnemonic?_eq_some]
  unfold instruction
  split
  · rename_i h
    simp [h]
  · rename_i i' h
    simp only [h, bind_eq_ok, atLine_eq_ok, pure_eq_ok, Except.ok.injEq, Option.some.injEq]
    refine ⟨fun h => ?_, fun h => ?_⟩
    · obtain ⟨ops, hops, rfl⟩ := h
      exact ⟨rfl, ops, hops⟩
    · obtain ⟨rfl, ops, hops⟩ := h
      exact ⟨ops, hops, rfl⟩

theorem load_eq_ok {d : Dialect} {m : Mention} {l : Line} {load : AddressLoad} :
    m.load d l = .ok load ↔ ∃ i, m.instruction l = .ok i ∧
      ((∃ short, i.shortForm? = some short ∧ m.loading = some load.register ∧
          load.transfer = some (i, short)) ∨
        (i.shortForm? = none ∧ i.mnemonic = "MOV" ∧ l.tokens.getD 1 "" = load.register.name ∧
          load.transfer = none)) := by
  obtain ⟨register, transfer⟩ := load
  unfold load
  rw [bind_eq_ok]
  refine exists_congr fun i => and_congr_right fun _ => ?_
  split
  · rename_i short hs
    split
    · rename_i r hr
      simp [hs, hr, eq_comm]
    · rename_i hr
      simp [hr, hs]
  · rename_i hs
    split
    · rename_i hm
      simp only [bind_eq_ok, atLine_eq_ok, readRegister_eq_ok, pure_eq_ok, Except.ok.injEq,
        AddressLoad.mk.injEq, hs, hm]
      refine ⟨fun h => ?_, fun h => ?_⟩
      · obtain ⟨r, hr, rfl, rfl⟩ := h
        exact Or.inr ⟨trivial, trivial, hr, rfl⟩
      · rcases h with ⟨short, h, -⟩ | ⟨-, -, hr, rfl⟩
        · cases h
        · exact ⟨register, hr, rfl, rfl⟩
    · rename_i hm
      simp [hs, hm]

end Mention

/-- The lines that use a label. The label of a move may stand in the place of the destination, in a
dialect in which a register has the form of a label; the other operand is then a register too. -/
inductive Line.Uses (d : Dialect) (labels : Array Label) (l : Line) : Use → Prop
  | move {label : Label} {r : Register} {token source : String} {loading : Option Register}
      (one : l.labelTokens d = [token]) (names : Mention.Names d labels token label loading)
      (shape : l.tokens = ["MOV", r.name, source])
      (operand : token = source ∨ ∃ r' : Register, source = r'.name) :
      Uses d labels l ⟨label, ⟨r, none⟩⟩
  | transfer {label : Label} {r : Register} {i short : Instruction} {token : String}
      (one : l.labelTokens d = [token]) (names : Mention.Names d labels token label (some r))
      (mem : i ∈ Instruction.catalog) (form : i.shortForm? = some short)
      (shape : l.tokens = [i.mnemonic, token]) : Uses d labels l ⟨label, ⟨r, some (i, short)⟩⟩

namespace Line

theorem use_eq_none {d : Dialect} {labels : Array Label} {l : Line} :
    l.use d labels = .ok none ↔ l.labelTokens d = [] := by
  unfold use
  rw [bind_eq_ok, ← @Mention.find_eq_none d labels l]
  refine ⟨fun h => ?_, fun h => ⟨none, h, rfl⟩⟩
  obtain ⟨m, hm, h⟩ := h
  cases m with
  | none => exact hm
  | some m =>
    obtain ⟨load, -, h⟩ := bind_eq_ok.1 h
    cases h

theorem use_eq_some {d : Dialect} {labels : Array Label} {l : Line} {u : Use} :
    l.use d labels = .ok (some u) ↔ ∃ m, Mention.find d labels l = .ok (some m) ∧
      m.label = u.label ∧ m.load d l = .ok u.load := by
  obtain ⟨label, load⟩ := u
  unfold use
  rw [bind_eq_ok]
  refine ⟨fun h => ?_, fun h => ?_⟩
  · obtain ⟨m, hm, h⟩ := h
    cases m with
    | none => cases h
    | some m =>
      obtain ⟨load', hl, h⟩ := bind_eq_ok.1 h
      cases h
      exact ⟨m, hm, rfl, hl⟩
  · obtain ⟨m, hm, rfl, hl⟩ := h
    exact ⟨some m, hm, bind_eq_ok.2 ⟨load, hl, rfl⟩⟩

theorem exists_transfer_operands {i : Instruction} (h : i.isTransfer = true)
    {tokens : List String} : (∃ ops, i.readOperands tokens = .ok ops) ↔
      ∃ m, ∃ r : Register, tokens = [m, r.name] := by
  rw [Mention.exists_readOperands, Instruction.slots_of_isTransfer h]
  refine ⟨fun h => ?_, fun h => ?_⟩
  · obtain ⟨hlen, hops⟩ := h
    obtain ⟨m, token, rfl⟩ := List.length_eq_two.1 hlen
    obtain ⟨r, rfl⟩ := Mention.exists_read_register.1 (hops _ (List.mem_singleton.2 rfl))
    exact ⟨m, r, rfl⟩
  · obtain ⟨m, r, rfl⟩ := h
    refine ⟨rfl, fun x hx => ?_⟩
    rw [List.mem_singleton.1 hx]
    exact Mention.exists_read_register.2 ⟨r, rfl⟩

theorem exists_mov_operands {tokens : List String} :
    (∃ ops, Instruction.mov.readOperands tokens = .ok ops) ↔
      ∃ m, ∃ r r' : Register, tokens = [m, r.name, r'.name] := by
  rw [Mention.exists_readOperands]
  refine ⟨fun h => ?_, fun h => ?_⟩
  · obtain ⟨hlen, hops⟩ := h
    obtain ⟨m, a, b, rfl⟩ := List.length_eq_three.1 hlen
    obtain ⟨r, rfl⟩ := Mention.exists_read_register.1 (hops (.register Shape.destField, a) (by
      simp [Instruction.slots, Instruction.mov, Shape.slots]))
    obtain ⟨r', rfl⟩ := Mention.exists_read_register.1
      (hops (.register (Shape.lowField 4), b) (by
        simp [Instruction.slots, Instruction.mov, Shape.slots]))
    exact ⟨m, r, r', rfl⟩
  · obtain ⟨m, r, r', rfl⟩ := h
    refine ⟨rfl, fun x hx => ?_⟩
    simp only [Instruction.slots, Instruction.mov, Shape.slots, List.tail_cons, List.zip_cons_cons,
      List.zip_nil_right, List.mem_cons, List.not_mem_nil, or_false] at hx
    rcases hx with rfl | rfl
    · exact Mention.exists_read_register.2 ⟨r, rfl⟩
    · exact Mention.exists_read_register.2 ⟨r', rfl⟩

theorem set_length_append {α : Type} (A B : List α) (x y : α) :
    (A ++ x :: B).set A.length y = A ++ y :: B := by simp

/-- In a transfer the one operand is all that comes after the mnemonic. -/
theorem around_transfer_operand {i : Instruction} (h : i.isTransfer = true) {a x : String}
    {A B : List String} (hops : ∃ ops, i.readOperands (a :: A ++ x :: B) = .ok ops) :
    A = [] ∧ B = [] := by
  obtain ⟨m, r, hset⟩ := (exists_transfer_operands h).1 hops
  have hlen := congrArg List.length hset
  simp only [List.length_append, List.length_cons, List.length_nil] at hlen
  exact ⟨List.length_eq_zero_iff.1 (by omega), List.length_eq_zero_iff.1 (by omega)⟩

/-- An operand of a move is followed or preceded by a register. -/
theorem around_mov_operand {a x : String} {A B : List String}
    (hops : ∃ ops, Instruction.mov.readOperands (a :: A ++ x :: B) = .ok ops) :
    (A = [] ∧ ∃ r : Register, B = [r.name]) ∨ (∃ r : Register, A = [r.name]) ∧ B = [] := by
  obtain ⟨m, r, r', hset⟩ := exists_mov_operands.1 hops
  rw [List.cons_append, List.cons.injEq] at hset
  rcases List.append_eq_cons_iff.1 hset.2 with ⟨rfl, hB⟩ | ⟨A', rfl, hB⟩
  · exact Or.inl ⟨rfl, r', (List.cons.inj hB).2⟩
  · have hlen := congrArg List.length hB
    simp only [List.length_append, List.length_cons, List.length_nil] at hlen
    obtain rfl : A' = [] := List.length_eq_zero_iff.1 (by omega)
    exact Or.inr ⟨⟨r, rfl⟩, List.length_eq_zero_iff.1 (by omega)⟩

theorem uses_of_use {d : Dialect} {labels : Array Label} {l : Line} {u : Use}
    (hfirst : d.isLabel l.first = false) (h : l.use d labels = .ok (some u)) :
    l.Uses d labels u := by
  obtain ⟨⟨index, label, loading⟩, hm, rfl, hl⟩ := use_eq_some.1 h
  obtain ⟨A, token, B, he, hone, ht, rfl, hn⟩ := Mention.find_eq_some.1 hm
  obtain ⟨i, hinst, hl⟩ := Mention.load_eq_ok.1 hl
  obtain ⟨⟨hi, hmn⟩, hops⟩ := Mention.instruction_eq_ok.1 hinst
  -- the mention is not the first token, so the mnemonic stays when the mention is replaced
  cases A with
  | nil =>
    rw [show l.first = token by simp [Line.first, he], ht] at hfirst
    cases hfirst
  | cons a A =>
  obtain rfl : i.mnemonic = a := by simp [hmn, Line.first, he]
  rw [he, set_length_append] at hops
  obtain ⟨v, register, transfer⟩ := u
  rcases hl with ⟨short, hs, rfl, rfl⟩ | ⟨-, hmov, hreg, rfl⟩
  · obtain ⟨rfl, rfl⟩ := around_transfer_operand (Instruction.isTransfer_of_shortForm? hs) hops
    exact .transfer hone hn hi hs he
  · obtain rfl := Instruction.eq_mov_of_mnemonic hi hmov
    rw [he] at hreg
    rcases around_mov_operand hops with ⟨rfl, r', rfl⟩ | ⟨⟨r, rfl⟩, rfl⟩
    · have hdest : token = register.name := hreg
      exact .move hone hn (by rw [he, ← hdest]; rfl) (Or.inr ⟨r', rfl⟩)
    · have hdest : r.name = register.name := hreg
      exact .move hone hn (by rw [he, ← hdest]; rfl) (Or.inl rfl)

/-- A move is read at whichever operand is the label, if a register in its place gives a move. -/
theorem use_of_mov_operand {d : Dialect} {labels : Array Label} {l : Line} {label : Label}
    {r : Register} {token : String} {loading : Option Register} {A B : List String}
    (hone : l.labelTokens d = [token]) (hn : Mention.Names d labels token label loading)
    (hfirst : l.first = "MOV") (hdest : l.tokens.getD 1 "" = r.name)
    (he : l.tokens = A ++ token :: B)
    (hops : ∃ ops, Instruction.mov.readOperands (A ++ Register.r0.name :: B) = .ok ops) :
    l.use d labels = .ok (some ⟨label, ⟨r, none⟩⟩) := by
  have ht : d.isLabel token = true := List.of_mem_filter (hone ▸ List.mem_singleton.2 rfl)
  have hnone : Instruction.mov.shortForm? = none := rfl
  refine use_eq_some.2 ⟨⟨A.length, label, loading⟩,
    Mention.find_eq_some.2 ⟨A, token, B, he, hone, ht, rfl, hn⟩, rfl,
    Mention.load_eq_ok.2 ⟨Instruction.mov, ?_, Or.inr ⟨hnone, rfl, hdest, rfl⟩⟩⟩
  refine Mention.instruction_eq_ok.2 ⟨⟨Instruction.moves_mem_catalog.1, hfirst.symm⟩, ?_⟩
  rwa [he, set_length_append]

theorem use_of_uses {d : Dialect} {labels : Array Label} {l : Line} {u : Use}
    (hfirst : d.isLabel l.first = false) (h : l.Uses d labels u) :
    l.use d labels = .ok (some u) := by
  cases h with
  | @transfer label r i short token hone hn hi hs he =>
    have ht : d.isLabel token = true := List.of_mem_filter (hone ▸ List.mem_singleton.2 rfl)
    refine use_eq_some.2 ⟨⟨1, label, some r⟩,
      Mention.find_eq_some.2 ⟨[i.mnemonic], token, [], he, hone, ht, rfl, hn⟩, rfl,
      Mention.load_eq_ok.2 ⟨i, ?_, Or.inl ⟨short, hs, rfl, rfl⟩⟩⟩
    refine Mention.instruction_eq_ok.2 ⟨⟨hi, by rw [Line.first, he]; rfl⟩, ?_⟩
    rw [he]
    exact (exists_transfer_operands (Instruction.isTransfer_of_shortForm? hs)).2
      ⟨i.mnemonic, Register.r0, rfl⟩
  | @move label r token source loading hone hn he hop =>
    have hmov : l.first = "MOV" := by rw [Line.first, he]; rfl
    have hdest : l.tokens.getD 1 "" = r.name := by rw [he]; rfl
    have hops : [r.name, source].filter d.isLabel = [token] := by
      have hmnemonic : ¬d.isLabel "MOV" = true := by simp [← hmov, hfirst]
      rwa [labelTokens, he, List.filter_cons_of_neg hmnemonic] at hone
    -- the label is one of the two operands, and a register stands in the place of the other
    cases hsource : d.isLabel source with
    | true =>
      have hr : source = token := by
        cases hr : d.isLabel r.name <;> simp_all
      exact use_of_mov_operand hone hn hmov hdest (A := ["MOV", r.name]) (B := [])
        (by rw [he, hr]; rfl) (exists_mov_operands.2 ⟨"MOV", r, Register.r0, rfl⟩)
    | false =>
      have hr : r.name = token := by cases hr : d.isLabel r.name <;> simp_all
      obtain ⟨r', rfl⟩ : ∃ r' : Register, source = r'.name := by
        rcases hop with rfl | h
        · exact ⟨r, hr.symm⟩
        · exact h
      exact use_of_mov_operand hone hn hmov hdest (A := ["MOV"]) (B := [r'.name])
        (by rw [he, hr]; rfl) (exists_mov_operands.2 ⟨"MOV", Register.r0, r', rfl⟩)

end Line

end CompactRisc
