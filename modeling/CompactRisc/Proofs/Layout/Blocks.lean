import CompactRisc.Proofs.Layout.Sizing
import CompactRisc.Proofs.Mentions
import CompactRisc.Proofs.Sequence

/-!
# Layouts as lists of blocks

Each line of the body turns into a block of one to three lines. A layout is at every moment a list
of such blocks, and each step of the resolution changes one of them: it is expanded, collapses
into its short form, or gets its displacement or the bytes of its address.

`Represents s bs` says that the layout `s` is the list of blocks `bs`: the program is the lines of
the blocks one after the other, and the references are those of the blocks.

Results:
* `Represents.position`: the place of a block is the sum of the sizes of the blocks before it.
* `represents_insertLoad`, `represents_collapse`, `represents_settle`, `represents_materialize`:
  what each step does to the block that it works on. The other blocks stay.
-/
namespace CompactRisc.Layout

/-- How far the reference of a block has come, and what is written into its lines. -/
inductive Stage where
  /-- The lines that load the address, with the name of the label in place of the bytes. -/
  | loading
  /-- The short form, with the name of the label in place of the displacement. -/
  | near
  | settled (displacement : Int)
  | loaded (address : Nat)
  deriving DecidableEq, Repr

def Stage.state : Stage → Reference.State
  | loading => .expanded
  | near | settled _ => .relaxed
  | loaded _ => .materialized

end Layout

namespace Use

def shortMnemonic (u : Use) : String := u.load.transfer.elim "" (·.2.mnemonic)

/-- The jump or call through the register that the address is loaded into. -/
def transferLine (u : Use) (source : Nat) : Option Line :=
  u.load.transfer.map fun x => ⟨[x.1.mnemonic, u.load.register.name], source⟩

/-- The lines that load an address and go on through it. -/
def longLines (u : Use) (source : Nat) (low high : String) : List Line :=
  ⟨Layout.lowTokens u.load.register low, source⟩ ::
    ⟨Layout.highTokens u.load.register high, source⟩ :: (u.transferLine source).toList

/-- The single line that goes to a label close by. -/
def shortLine (u : Use) (source : Nat) (displacement : String) : Line :=
  ⟨[u.shortMnemonic, displacement], source⟩

def lines (u : Use) (source : Nat) : Layout.Stage → List Line
  | .loading => u.longLines source u.label.name u.label.name
  | .near => [u.shortLine source u.label.name]
  | .settled v => [u.shortLine source (Text.decimal v)]
  | .loaded a => u.longLines source (Layout.lowByte a) (Layout.highByte a)

end Use

namespace Layout

/-- What a line of the body has become. -/
inductive Block where
  /-- A line without a reference, or one that has not been looked at. -/
  | plain (id : LineId) (line : Line)
  /-- A reference, with the handles of its lines; `transfer` is not in use if it is a move. -/
  | site (id high transfer : LineId) (source : Nat) (use : Use) (stage : Stage)
  deriving DecidableEq, Repr

namespace Block

def id : Block → LineId
  | plain id _ | site id .. => id

def entries : Block → List (LineId × Line)
  | plain id line => [(id, line)]
  | site id high transfer source use stage => [id, high, transfer].zip (use.lines source stage)

def lines : Block → List Line
  | plain _ line => [line]
  | site _ _ _ source use stage => use.lines source stage

/-- The handles of all lines that the block has or had. -/
def handles : Block → List LineId
  | plain id _ => [id]
  | site id high transfer source use _ =>
    id :: high :: (use.transferLine source).toList.map fun _ => transfer

def reference? : Block → Option Reference
  | plain .. => none
  | site id high transfer _ use stage =>
    some ⟨use.label, id, high, use.load.transfer.map fun x => ⟨transfer, x.2⟩, stage.state⟩

def size (b : Block) : Nat := b.entries.length

def withStage (stage : Stage) : Block → Block
  | plain id line => plain id line
  | site id high transfer source use _ => site id high transfer source use stage

end Block

/-- The layout is the list of blocks. -/
structure Represents (s : Layout) (bs : List Block) : Prop where
  valid : s.program.Valid
  entries : s.program.entries = bs.flatMap Block.entries
  references : s.references.toList = bs.filterMap Block.reference?
  /-- No handle stands for two lines. -/
  distinct : (bs.flatMap Block.handles).Nodup
  /-- The handles that are still to come are new. -/
  made : ∀ h ∈ bs.flatMap Block.handles, h < s.program.nextId

/-! ## Blocks -/

theorem length_lines (u : Use) (source : Nat) (stage : Stage) :
    1 ≤ (u.lines source stage).length ∧ (u.lines source stage).length ≤ 3 := by
  have h : (u.transferLine source).toList.length ≤ 1 := by
    cases u.transferLine source <;> simp
  cases stage <;>
    simp only [Use.lines, Use.longLines, List.length_cons, List.length_nil] <;> omega

theorem Block.map_snd_entries (b : Block) : b.entries.map Prod.snd = b.lines := by
  cases b with
  | plain id line => rfl
  | site id high transfer source use stage =>
    exact List.map_snd_zip (length_lines use source stage).2

theorem Block.entries_eq_cons (b : Block) : ∃ l rest, b.entries = (b.id, l) :: rest := by
  cases b with
  | plain id line => exact ⟨line, [], rfl⟩
  | site id high transfer source use stage =>
    cases h : use.lines source stage with
    | nil =>
      have := (length_lines use source stage).1
      simp [h] at this
    | cons l ls => exact ⟨l, [high, transfer].zip ls, by simp [Block.entries, Block.id, h]⟩

theorem length_flatMap_entries (bs : List Block) :
    (bs.flatMap Block.entries).length = (bs.map Block.size).sum := by
  rw [List.length_flatMap]
  rfl

theorem split_at {α : Type} {as : List α} {k : Nat} {a : α} (h : as[k]? = some a) :
    as = as.take k ++ a :: as.drop (k + 1) := by
  obtain ⟨hlt, rfl⟩ := List.getElem?_eq_some_iff.1 h
  rw [List.getElem_cons_drop, List.take_append_drop]

/-- The place of a block is the sum of the sizes of the blocks before it. -/
theorem Represents.position {s : Layout} {bs : List Block} (h : Represents s bs) {k : Nat}
    {b : Block} (hk : bs[k]? = some b) :
    s.program.position b.id = some (Sizing.address (bs.map Block.size) k) := by
  obtain ⟨l, tail, he⟩ := b.entries_eq_cons
  have hentries := h.entries
  rw [split_at hk, List.flatMap_append, List.flatMap_cons, he, List.cons_append] at hentries
  rw [h.valid.position_eq hentries, length_flatMap_entries, List.map_take]
  rfl

theorem Represents.size {s : Layout} {bs : List Block} (h : Represents s bs) :
    s.program.size = (bs.map Block.size).sum := by
  rw [← Program.length_entries, h.entries, length_flatMap_entries]

theorem Represents.lines {s : Layout} {bs : List Block} (h : Represents s bs) :
    s.program.lines = bs.flatMap Block.lines := by
  rw [Program.lines_eq_map_entries, h.entries, List.map_flatMap]
  exact congrArg (bs.flatMap ·) (funext Block.map_snd_entries)

/-! ## Steps on one block -/

section Steps

variable {s : Layout} {A B : List Block} {id high transfer : LineId} {source : Nat} {u : Use}
  {stage : Stage}

/-- A step that leaves the handles alone is right if the program and the references are. -/
theorem Represents.restage (h : Represents s (A ++ .site id high transfer source u stage :: B))
    {s' : Layout} {stage' : Stage} (hvalid : s'.program.Valid)
    (hnext : s'.program.nextId = s.program.nextId)
    (hentries : s'.program.entries = A.flatMap Block.entries ++
      ([id, high, transfer].zip (u.lines source stage') ++ B.flatMap Block.entries))
    (hrefs : s'.references.toList = A.filterMap Block.reference? ++
      (Block.site id high transfer source u stage').reference?.toList ++
        B.filterMap Block.reference?) :
    Represents s' (A ++ .site id high transfer source u stage' :: B) where
  valid := hvalid
  entries := by rw [hentries, List.flatMap_append, List.flatMap_cons]; rfl
  references := by
    rw [hrefs, List.filterMap_append, List.filterMap_cons]
    simp [Block.reference?]
  distinct := by simpa [Block.handles] using h.distinct
  made := by
    rw [hnext]
    simpa [Block.handles] using h.made

theorem modify_length_append {α : Type} (A B : List α) (x : α) (f : α → α) :
    (A ++ x :: B).modify A.length f = A ++ f x :: B := by
  induction A with
  | nil => rfl
  | cons a A ih => simp [ih]

theorem toList_setState_references (s : Layout) {P Q : List Reference} {r : Reference}
    (h : s.references.toList = P ++ r :: Q) (state : Reference.State) :
    (s.setState P.length state).references.toList = P ++ { r with state } :: Q := by
  simp only [setState, Array.toList_modify, h]
  exact modify_length_append P Q r _

theorem nodup_insert_new {X Y new : List LineId} {id n : LineId} (h : (X ++ id :: Y).Nodup)
    (hlt : ∀ x ∈ X ++ id :: Y, x < n) (hnew : new.Nodup) (hge : ∀ x ∈ new, n ≤ x) :
    (X ++ (id :: new ++ Y)).Nodup := by
  have hperm : (X ++ (id :: new ++ Y)).Perm (new ++ (X ++ id :: Y)) := by
    have h₁ : (X ++ [id] ++ new ++ Y).Perm (new ++ (X ++ [id]) ++ Y) :=
      List.perm_append_comm.append_right Y
    simpa using h₁
  rw [hperm.nodup_iff, List.nodup_append]
  refine ⟨hnew, h, fun x hx y hy he => ?_⟩
  subst he
  exact Nat.lt_irrefl _ (Nat.lt_of_lt_of_le (hlt x hy) (hge x hx))

theorem lt_insert_new {X Y new : List LineId} {id n m : LineId}
    (hlt : ∀ x ∈ X ++ id :: Y, x < n) (hle : n ≤ m) (hnew : ∀ x ∈ new, x < m) :
    ∀ x ∈ X ++ (id :: new ++ Y), x < m := by
  intro x hx
  have hmem : x ∈ X ++ id :: Y ∨ x ∈ new := by
    simp only [List.mem_append, List.mem_cons] at hx ⊢
    tauto
  rcases hmem with hx | hx
  · exact Nat.lt_of_lt_of_le (hlt x hx) hle
  · exact hnew x hx

/-- The program in which two lines that load an address stand in place of the line at `pos`. -/
def withLoad (p : Program) (id : LineId) (pos source : Nat) (u : Use) : Program :=
  (p.modify id ({ · with tokens := lowTokens u.load.register u.label.name })).insert (pos + 1)
    ⟨highTokens u.load.register u.label.name, source⟩

theorem nextId_withLoad (p : Program) (id : LineId) (pos source : Nat) (u : Use) :
    (withLoad p id pos source u).nextId = p.nextId + 1 := by
  rw [withLoad, Program.nextId_insert, Program.nextId_modify]

theorem withLoad_spec {p : Program} (hp : p.Valid) {E F : List (LineId × Line)} {l : Line}
    (h : p.entries = E ++ (id, l) :: F) :
    (withLoad p id E.length l.source u).Valid ∧
      (withLoad p id E.length l.source u).entries =
        (E ++ [(id, ⟨lowTokens u.load.register u.label.name, l.source⟩),
          (p.nextId, ⟨highTokens u.load.register u.label.name, l.source⟩)]) ++ F := by
  have hlow := Program.entries_modify_append hp h
    ({ · with tokens := lowTokens u.load.register u.label.name })
  rw [← List.singleton_append, ← List.append_assoc] at hlow
  have vlow := Program.valid_modify hp id
    ({ · with tokens := lowTokens u.load.register u.label.name })
  refine ⟨Program.valid_insert vlow ?_ _, ?_⟩
  · rw [← Program.length_entries, hlow]
    simp
  · have hpair := Program.entries_insert_append vlow
      ⟨highTokens u.load.register u.label.name, l.source⟩ hlow
    rw [List.length_append, List.length_singleton] at hpair
    rw [withLoad, hpair, Program.nextId_modify]
    simp

theorem insertLoad_of_move (s : Layout) (id : LineId) (pos source : Nat)
    (h : u.load.transfer = none) : s.insertLoad id pos source u.label u.load =
      ⟨withLoad s.program id pos source u, s.labels,
        s.references.push ⟨u.label, id, s.program.nextId, none, .expanded⟩⟩ := by
  simp [insertLoad, h, withLoad, Program.nextId_modify]

theorem insertLoad_of_transfer (s : Layout) (id : LineId) (pos source : Nat)
    {through short : Instruction} (h : u.load.transfer = some (through, short)) :
    s.insertLoad id pos source u.label u.load =
      ⟨(withLoad s.program id pos source u).insert (pos + 2)
          ⟨[through.mnemonic, u.load.register.name], source⟩, s.labels,
        s.references.push
          ⟨u.label, id, s.program.nextId, some ⟨s.program.nextId + 1, short⟩, .expanded⟩⟩ := by
  simp [insertLoad, h, withLoad, Program.nextId_modify, Program.nextId_insert]

theorem insertLoad_labels (s : Layout) (id : LineId) (pos source : Nat) (u : Use) :
    (s.insertLoad id pos source u.label u.load).labels = s.labels := by
  cases h : u.load.transfer with
  | none => rw [insertLoad_of_move s id pos source h]
  | some t => rw [insertLoad_of_transfer s id pos source h]

/-- A step that turns a line into the lines of a reference is right if the program and the
references are, and the handles that come in are the next ones. -/
theorem Represents.expanded {l : Line} (h : Represents s (A ++ .plain id l :: B))
    (hB : B.filterMap Block.reference? = []) {s' : Layout} {n : Nat} {reference : Reference}
    (hvalid : s'.program.Valid)
    (hentries : s'.program.entries = A.flatMap Block.entries ++
      ([id, high, transfer].zip (u.lines source stage) ++ B.flatMap Block.entries))
    (hrefs : s'.references = s.references.push reference)
    (hreference : (Block.site id high transfer source u stage).reference? = some reference)
    (hhandles : (Block.site id high transfer source u stage).handles =
      id :: List.range' s.program.nextId n)
    (hnext : s'.program.nextId = s.program.nextId + n) :
    Represents s' (A ++ .site id high transfer source u stage :: B) := by
  have hold : (A.flatMap Block.handles ++ id :: B.flatMap Block.handles).Nodup := by
    simpa [Block.handles] using h.distinct
  have hmade : ∀ x ∈ A.flatMap Block.handles ++ id :: B.flatMap Block.handles,
      x < s.program.nextId := by
    simpa [Block.handles] using h.made
  have hall : (A ++ .site id high transfer source u stage :: B).flatMap Block.handles =
      A.flatMap Block.handles ++
        (id :: List.range' s.program.nextId n ++ B.flatMap Block.handles) := by
    rw [List.flatMap_append, List.flatMap_cons, hhandles]
  refine ⟨hvalid, ?_, ?_, ?_, ?_⟩
  · rw [hentries, List.flatMap_append, List.flatMap_cons]
    rfl
  · have hbefore : s.references.toList = A.filterMap Block.reference? := by
      simpa [List.filterMap_append, List.filterMap_cons, Block.reference?, hB] using h.references
    rw [hrefs, Array.toList_push, hbefore, List.filterMap_append, List.filterMap_cons, hreference,
      hB]
  · rw [hall]
    exact nodup_insert_new hold hmade List.nodup_range' fun x hx => (List.mem_range'_1.1 hx).1
  · rw [hall, hnext]
    exact lt_insert_new hmade (Nat.le_add_right _ n) fun x hx => (List.mem_range'_1.1 hx).2

/-- Expansion of one line. The references after it are still to come. -/
theorem represents_insertLoad {l : Line} {pos : Nat} (h : Represents s (A ++ .plain id l :: B))
    (hB : B.filterMap Block.reference? = []) (hpos : s.program.position id = some pos) :
    Represents (s.insertLoad id pos l.source u.label u.load)
      (A ++ .site id s.program.nextId (s.program.nextId + 1) l.source u .loading :: B) := by
  have hentries :
      s.program.entries = A.flatMap Block.entries ++ (id, l) :: B.flatMap Block.entries := by
    simpa [List.flatMap_append, Block.entries] using h.entries
  obtain rfl : (A.flatMap Block.entries).length = pos :=
    Option.some.inj ((h.valid.position_eq hentries).symm.trans hpos)
  obtain ⟨vpair, hpair⟩ := withLoad_spec (u := u) h.valid hentries
  have hnext := nextId_withLoad s.program id (A.flatMap Block.entries).length l.source u
  cases htr : u.load.transfer with
  | none =>
    rw [insertLoad_of_move s id _ _ htr]
    apply h.expanded hB (n := 1) vpair
    · rw [hpair]
      simp [Use.lines, Use.longLines, Use.transferLine, htr]
    · rfl
    · simp [Block.reference?, Stage.state, htr]
    · simp [Block.handles, Use.transferLine, htr]
    · exact hnext
  | some t =>
    obtain ⟨through, short⟩ := t
    have htriple := Program.entries_insert_append vpair
      ⟨[through.mnemonic, u.load.register.name], l.source⟩ hpair
    rw [List.length_append, List.length_cons, List.length_singleton, hnext] at htriple
    rw [insertLoad_of_transfer s id _ _ htr]
    apply h.expanded hB (n := 2)
    · apply Program.valid_insert vpair
      rw [← Program.length_entries, hpair]
      simp
    · rw [htriple]
      simp [Use.lines, Use.longLines, Use.transferLine, htr]
    · rfl
    · simp [Block.reference?, Stage.state, htr]
    · simp [Block.handles, Use.transferLine, htr, List.range'_succ]
    · rw [Program.nextId_insert, hnext]

@[simp] theorem edit_program (s : Layout) (f : Program → Program) :
    (s.edit f).program = f s.program := rfl

@[simp] theorem edit_references (s : Layout) (f : Program → Program) :
    (s.edit f).references = s.references := rfl

@[simp] theorem setState_program (s : Layout) (index : Nat) (state : Reference.State) :
    (s.setState index state).program = s.program := rfl

theorem Represents.around (h : Represents s (A ++ .site id high transfer source u stage :: B)) :
    s.program.entries = A.flatMap Block.entries ++
        ([id, high, transfer].zip (u.lines source stage) ++ B.flatMap Block.entries) ∧
      s.references.toList = A.filterMap Block.reference? ++
        ⟨u.label, id, high, u.load.transfer.map fun x => ⟨transfer, x.2⟩, stage.state⟩ ::
          B.filterMap Block.reference? := by
  refine ⟨?_, ?_⟩
  · rw [h.entries, List.flatMap_append, List.flatMap_cons]
    rfl
  · rw [h.references, List.filterMap_append, List.filterMap_cons]
    rfl

/-- A collapse removes two lines and makes the first one the short form. -/
theorem represents_collapse (h : Represents s (A ++ .site id high transfer source u .loading :: B))
    {through short : Instruction} (htr : u.load.transfer = some (through, short)) :
    Represents (s.collapse (A.filterMap Block.reference?).length
        ⟨u.label, id, high, some ⟨transfer, short⟩, .expanded⟩ ⟨transfer, short⟩)
      (A ++ .site id high transfer source u .near :: B) := by
  obtain ⟨hentries, hrefs⟩ := h.around
  have hshort : u.shortMnemonic = short.mnemonic := by simp [Use.shortMnemonic, htr]
  simp only [Use.lines, Use.longLines, Use.transferLine, htr, Option.map_some, Option.toList_some,
    List.zip_cons_cons, List.zip_nil_right, List.cons_append, List.nil_append] at hentries
  -- the transfer goes first, then the line that loads the high byte
  rw [List.append_cons, List.append_cons] at hentries
  have h₁ := Program.entries_removeId_append h.valid hentries
  have v₁ := Program.valid_removeId h.valid transfer
  rw [List.append_assoc, List.singleton_append] at h₁
  have h₂ := Program.entries_removeId_append v₁ h₁
  have v₂ := Program.valid_removeId v₁ high
  rw [List.append_assoc, List.singleton_append] at h₂
  have h₃ := Program.entries_modify_append v₂ h₂
    ({ · with tokens := [short.mnemonic, u.label.name] })
  apply h.restage
  · exact Program.valid_modify v₂ _ _
  · simp [collapse, Program.nextId_modify, Program.nextId_removeId]
  · simp only [collapse, edit_program, setState_program]
    rw [h₃]
    simp [Use.lines, Use.shortLine, hshort]
  · simp only [collapse, edit_references]
    rw [toList_setState_references s hrefs]
    simp [Block.reference?, Stage.state]

theorem represents_settle (h : Represents s (A ++ .site id high transfer source u .near :: B))
    (v : Int) : Represents (s.edit (·.modify id (·.setToken 1 (Text.decimal v))))
      (A ++ .site id high transfer source u (.settled v) :: B) := by
  obtain ⟨hentries, hrefs⟩ := h.around
  simp only [Use.lines, List.zip_cons_cons, List.zip_nil_right, List.cons_append,
    List.nil_append] at hentries
  apply h.restage
  · exact Program.valid_modify h.valid _ _
  · exact Program.nextId_modify _ _ _
  · rw [edit_program, Program.entries_modify_append h.valid hentries]
    rfl
  · rw [edit_references, hrefs]
    simp [Block.reference?, Stage.state]

theorem represents_materialize
    (h : Represents s (A ++ .site id high transfer source u .loading :: B)) (a : Nat) :
    Represents ((s.setState (A.filterMap Block.reference?).length .materialized).edit fun program =>
        (program.modify id (·.setToken 2 (lowByte a))).modify high (·.setToken 2 (highByte a)))
      (A ++ .site id high transfer source u (.loaded a) :: B) := by
  obtain ⟨hentries, hrefs⟩ := h.around
  simp only [Use.lines, Use.longLines, List.zip_cons_cons, List.cons_append] at hentries
  have h₁ := Program.entries_modify_append h.valid hentries (·.setToken 2 (lowByte a))
  have v₁ := Program.valid_modify h.valid id (·.setToken 2 (lowByte a))
  rw [List.append_cons] at h₁
  have h₂ := Program.entries_modify_append v₁ h₁ (·.setToken 2 (highByte a))
  apply h.restage
  · exact Program.valid_modify v₁ _ _
  · simp [Program.nextId_modify]
  · simp only [edit_program, setState_program]
    rw [h₂, List.append_assoc]
    rfl
  · rw [edit_references, toList_setState_references s hrefs]
    simp [Block.reference?, Stage.state]

end Steps

end CompactRisc.Layout
