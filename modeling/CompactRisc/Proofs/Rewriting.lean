import CompactRisc.Proofs.Resolution

/-!
# Resolution as a rewriting of lines

A resolved program is made of one block of lines for each line of the body, in the order of the
body. What the block of a line looks like depends on the line alone, except for the address of the
label that it mentions and the place of the block.

Results:
* `Resolved.becomes`: every line of the body becomes a block of one of four forms.
* `Resolved.written`: every line of the result is an old one or one of four kinds.
* `Program.laidOut`: all that a resolution gives, in terms of the lines alone.
* `Program.resolve_blockwise`: the result is these blocks one after the other, and the labels have
  the addresses of the blocks that they stand before.
-/
namespace CompactRisc

open Layout

/-- The block of a line, if it starts at `q` and these are the addresses of the labels. -/
inductive Line.Becomes (d : Dialect) (symbols : List Symbol) (q : Nat) (l : Line) : List Line → Prop
  /-- A line that mentions no label stays. -/
  | plain (none : l.labelTokens d = []) : Becomes d symbols q l [l]
  /-- A move of an address becomes the loads of its two bytes. -/
  | load {r : Register} {a : Nat} {name source : String} (mentions : l.mentioned? d = some name)
      (symbol : ⟨name, a⟩ ∈ symbols) (shape : l.tokens = ["MOV", r.name, source]) :
      Becomes d symbols q l [
        ⟨["MOVIL", r.name, lowByte a], l.source⟩,
        ⟨["MOVIU", r.name, highByte a], l.source⟩]
  /-- A jump or call to an address far away goes through the loading register. -/
  | far {i : Instruction} {r : Register} {a : Nat} {name token : String}
      (mentions : l.mentioned? d = some name) (symbol : ⟨name, a⟩ ∈ symbols)
      (mem : i ∈ Instruction.catalog) (transfer : i.isTransfer = true)
      (shape : l.tokens = [i.mnemonic, token])
      (loading : token.toList.splitOn d.loadSeparator = [name.toList, r.name.toList]) :
      Becomes d symbols q l [
        ⟨["MOVIL", r.name, lowByte a], l.source⟩,
        ⟨["MOVIU", r.name, highByte a], l.source⟩,
        ⟨[i.mnemonic, r.name], l.source⟩]
  /-- A jump or call to an address close by takes its short form, which reaches it. -/
  | near {i short : Instruction} {r : Register} {a : Nat} {name token : String}
      {least greatest : Int} (mentions : l.mentioned? d = some name) (symbol : ⟨name, a⟩ ∈ symbols)
      (mem : i ∈ Instruction.catalog) (form : i.shortForm? = some short)
      (shape : l.tokens = [i.mnemonic, token])
      (loading : token.toList.splitOn d.loadSeparator = [name.toList, r.name.toList])
      (range : short.shape.displacementRange? = some (least, greatest))
      (least_le : least ≤ (a : Int) - q - 1) (le_greatest : (a : Int) - q - 1 ≤ greatest) :
      Becomes d symbols q l [⟨[short.mnemonic, Text.decimal ((a : Int) - q - 1)], l.source⟩]

theorem Line.Becomes.eq_singleton {d : Dialect} {symbols : List Symbol} {q : Nat} {l : Line}
    {block : List Line} (h : l.Becomes d symbols q block) (hnone : l.labelTokens d = []) :
    block = [l] := by
  have hmentioned := Outline.mentioned?_eq_none.2 hnone
  cases h with
  | plain => rfl
  | load hmentions => cases hmentions.symm.trans hmentioned
  | far hmentions => cases hmentions.symm.trans hmentioned
  | near hmentions => cases hmentions.symm.trans hmentioned

/-- The lines that are written in place of others. -/
inductive Line.Written : Line → Prop
  | low (r : Register) (a source : Nat) : Written ⟨["MOVIL", r.name, lowByte a], source⟩
  | high (r : Register) (a source : Nat) : Written ⟨["MOVIU", r.name, highByte a], source⟩
  | through {i : Instruction} (mem : i ∈ Instruction.catalog) (transfer : i.isTransfer = true)
      (r : Register) (source : Nat) : Written ⟨[i.mnemonic, r.name], source⟩
  | short {short : Instruction} {least greatest v : Int} (mem : short ∈ Instruction.catalog)
      (range : short.shape.displacementRange? = some (least, greatest)) (least_le : least ≤ v)
      (le_greatest : v ≤ greatest) (source : Nat) :
      Written ⟨[short.mnemonic, Text.decimal v], source⟩

theorem Line.Becomes.written {d : Dialect} {symbols : List Symbol} {q : Nat} {l : Line}
    {block : List Line} (h : l.Becomes d symbols q block) {g : Line} (hg : g ∈ block) :
    g.Written ∨ (g = l ∧ l.labelTokens d = []) := by
  cases h with
  | plain hnone => exact Or.inr ⟨List.mem_singleton.1 hg, hnone⟩
  | @load r a =>
    simp only [List.mem_cons, List.not_mem_nil, or_false] at hg
    rcases hg with rfl | rfl
    · exact Or.inl (.low r a l.source)
    · exact Or.inl (.high r a l.source)
  | @far i r a _ _ _ _ hi htransfer =>
    simp only [List.mem_cons, List.not_mem_nil, or_false] at hg
    rcases hg with rfl | rfl | rfl
    · exact Or.inl (.low r a l.source)
    · exact Or.inl (.high r a l.source)
    · exact Or.inl (.through hi htransfer r l.source)
  | near _ _ _ hform _ _ hrange hleast hgreatest =>
    have hshort := (Instruction.shortForm?_eq_some hform).1
    rw [List.mem_singleton.1 hg]
    exact Or.inl (.short hshort hrange hleast hgreatest l.source)

/-- The number of lines before block `k`. -/
def start (blocks : List (List Line)) (k : Nat) : Nat := (blocks.take k).flatten.length

theorem address_map_length (blocks : List (List Line)) (k : Nat) :
    Sizing.address (blocks.map List.length) k = start blocks k := by
  rw [Sizing.address, start, List.length_flatten, List.map_take]

theorem getElem?_start {blocks : List (List Line)} {k j : Nat} {block : List Line}
    (hk : blocks[k]? = some block) (hj : j < block.length) :
    blocks.flatten[start blocks k + j]? = block[j]? := by
  have hflat : blocks.flatten =
      (blocks.take k).flatten ++ (block ++ (blocks.drop (k + 1)).flatten) := by
    conv_lhs => rw [split_at hk, List.flatten_append, List.flatten_cons]
  rw [hflat, start, List.getElem?_append_right (Nat.le_add_right _ _), Nat.add_sub_cancel_left,
    List.getElem?_append_left hj]

namespace Resolved

variable {d : Dialect} {p : Program} {r : Resolution} {labels : Array Label} {bs : List Block}

/-- The lines that each line of the body has become. -/
def linesOf (bs : List Block) : List (List Line) := (finalBlocks bs).map Block.lines

theorem map_length_linesOf (h : Resolved d p r labels bs) :
    (linesOf bs).map List.length = Outline.sizes d p.lines := by
  rw [← h.sizes_eq, linesOf, List.map_map]
  apply List.map_congr_left
  intro b _
  rw [Function.comp_apply, ← b.map_snd_entries, List.length_map]
  rfl

/-- A line of the body that is not a transfer has the same size in the end. -/
theorem long_of_load (h : Resolved d p r labels bs) {k : Nat} {id high transfer : LineId}
    {source : Nat} {u : Use} {stage : Stage}
    (hk : bs[k]? = some (.site id high transfer source u stage)) (hu : u.load.transfer = none) :
    (Outline.sizes d p.lines)[k]? ≠ some 1 := by
  have hitem : (Outline.items d p.lines)[k]? =
      some (.load ((bs.map Block.id).idxOf u.label.target)) := by
    rw [← h.items_eq, Layout.items, List.getElem?_map, hk, Option.map_some, Block.item, hu]
  rcases (Sizing.conform_sizesAfter _ _).2 k _ hitem with hsize | ⟨⟨t, least, greatest, he⟩, -⟩
  · rw [Outline.sizes, Sizing.finalSizes, hsize]
    simp [Sizing.Item.size]
  · cases he

theorem transfer_item (h : Resolved d p r labels bs) {k : Nat} {id high transfer : LineId}
    {source : Nat} {u : Use} {stage : Stage} {i short : Instruction}
    (hk : bs[k]? = some (.site id high transfer source u stage))
    (hu : u.load.transfer = some (i, short)) (hform : i.shortForm? = some short) :
    ∃ least greatest, short.shape.displacementRange? = some (least, greatest) ∧
      least ≤ 0 ∧ 0 ≤ greatest ∧ (Outline.items d p.lines)[k]? =
        some (.transfer ((bs.map Block.id).idxOf u.label.target) least greatest) := by
  obtain ⟨least, greatest, hrange, hleast, hgreatest⟩ : ∃ least greatest,
      short.shape.displacementRange? = some (least, greatest) ∧ least ≤ 0 ∧ 0 ≤ greatest := by
    rcases (Instruction.shortForm?_eq_some hform).2 with ⟨c, -, hs⟩ | ⟨-, hs⟩
    · exact ⟨-128, 127, by rw [hs]; rfl, by decide, by decide⟩
    · exact ⟨-2048, 2047, by rw [hs]; rfl, by decide, by decide⟩
  refine ⟨least, greatest, hrange, hleast, hgreatest, ?_⟩
  rw [← h.items_eq, Layout.items, List.getElem?_map, hk, Option.map_some]
  simp only [Block.item, hu, hrange, Option.getD_some]

theorem displacement_fits (h : Resolved d p r labels bs) {k : Nat} {id high transfer : LineId}
    {source : Nat} {u : Use} {stage : Stage} {i short : Instruction}
    (hk : bs[k]? = some (.site id high transfer source u stage))
    (hu : u.load.transfer = some (i, short)) (hform : i.shortForm? = some short)
    (hsize : (Outline.sizes d p.lines)[k]? = some 1) :
    ∃ least greatest, short.shape.displacementRange? = some (least, greatest) ∧
      least ≤ Sizing.displacement (Outline.items d p.lines) (Outline.sizes d p.lines) k ∧
      Sizing.displacement (Outline.items d p.lines) (Outline.sizes d p.lines) k ≤ greatest := by
  obtain ⟨least, greatest, hrange, hleast, hgreatest, hitem⟩ := h.transfer_item hk hu hform
  exact ⟨least, greatest, hrange, Sizing.displacement_fits hitem hsize hleast hgreatest⟩

/-- Every line of the body becomes a block of one of the four forms. -/
theorem becomes (hp : p.Valid) (h : Resolved d p r labels bs) {k : Nat} {e : LineId × Line}
    (hk : (Label.strip d p).entries[k]? = some e) : ∃ block, (linesOf bs)[k]? = some block ∧
      e.2.Becomes d r.symbols (Sizing.address (Outline.sizes d p.lines) k) block := by
  obtain ⟨b, hb, hexpands, hfinal⟩ := h.block_at hk
  refine ⟨_, by rw [linesOf, List.getElem?_map, hfinal, Option.map_some], ?_⟩
  cases hexpands with
  | plain hnone => exact .plain hnone
  | @site id l u hu high transfer =>
    have hsymbol := h.symbol_mem hp hb hu.mem
    cases hu with
    | @move label r token source loading hone hn hshape _ =>
      have hlong := h.long_of_load hb rfl
      have hstage : finalStage (Outline.items d p.lines) k = .loaded (Sizing.address
          (Outline.sizes d p.lines) (Sizing.targetOf (Outline.items d p.lines) k)) := if_neg hlong
      rw [hstage]
      exact .load (Outline.mentioned?_of_names hone hn) hsymbol hshape
    | @transfer label r i short token hone hn hi hform hshape =>
      have hmentions := Outline.mentioned?_of_names hone hn
      have htransfer := Instruction.isTransfer_of_shortForm? hform
      unfold finalStage
      split
      · rename_i hsize
        obtain ⟨least, greatest, hrange, hleast, hgreatest⟩ :=
          h.displacement_fits hb rfl hform hsize
        exact .near hmentions hsymbol hi hform hshape hn.1 hrange hleast hgreatest
      · exact .far hmentions hsymbol hi htransfer hshape hn.1

theorem length_linesOf (h : Resolved d p r labels bs) :
    (linesOf bs).length = (body d p.lines).length := by
  rw [linesOf, List.length_map, length_finalBlocks, h.length_eq]

theorem becomes_at (hp : p.Valid) (h : Resolved d p r labels bs) {k : Nat} {l : Line}
    (hk : (body d p.lines)[k]? = some l) : ∃ block, (linesOf bs)[k]? = some block ∧
      l.Becomes d r.symbols (Sizing.address (Outline.sizes d p.lines) k) block := by
  rw [← Label.strip_lines, Program.lines_eq_map_entries, List.getElem?_map] at hk
  obtain ⟨e, he, rfl⟩ := Option.map_eq_some_iff.1 hk
  exact h.becomes hp he

theorem flatten_linesOf (h : Resolved d p r labels bs) :
    r.program.lines = (linesOf bs).flatten := by
  rw [h.lines_eq, linesOf, List.flatMap_def]

/-- Every line of the result is a line of the body that mentions no label, or has been written. -/
theorem written (hp : p.Valid) (h : Resolved d p r labels bs) {g : Line}
    (hg : g ∈ r.program.lines) : g.Written ∨ (g ∈ body d p.lines ∧ g.labelTokens d = []) := by
  rw [h.flatten_linesOf] at hg
  obtain ⟨block, hblock, hg⟩ := List.mem_flatten.1 hg
  obtain ⟨k, hk⟩ := List.getElem?_of_mem hblock
  have hlt : k < (body d p.lines).length := by
    rw [← h.length_linesOf]
    exact (List.getElem?_eq_some_iff.1 hk).1
  obtain ⟨block', hk', hbecomes⟩ := h.becomes_at hp (List.getElem?_eq_getElem hlt)
  cases hk.symm.trans hk'
  rcases hbecomes.written hg with hwritten | ⟨rfl, hnone⟩
  · exact Or.inl hwritten
  · exact Or.inr ⟨List.getElem_mem hlt, hnone⟩

/-- The handle of a line of the body is that of the first line of its block. -/
theorem head?_linesOf (h : Resolved d p r labels bs) {k : Nat} {e : LineId × Line}
    (hk : (Label.strip d p).entries[k]? = some e) {block : List Line}
    (hblock : (linesOf bs)[k]? = some block) : block.head? = some (r.program.line e.1) := by
  obtain ⟨b, hb, hexpands, hfinal⟩ := h.block_at hk
  rw [linesOf, List.getElem?_map, hfinal, Option.map_some, Option.some.injEq] at hblock
  obtain ⟨l, rest, hentries⟩ :=
    (b.withStage (finalStage (Outline.items d p.lines) k)).entries_eq_cons
  have hid : b.id = e.1 := by cases hexpands <;> rfl
  rw [id_withStage, hid] at hentries
  have hmem : (e.1, l) ∈ r.program.entries := by
    rw [h.layout.entries]
    refine List.mem_flatMap.2 ⟨_, List.mem_of_getElem? hfinal, ?_⟩
    rw [hentries]
    exact List.mem_cons_self
  rw [← hblock, ← Block.map_snd_entries, hentries, Program.line_of_mem_entries hmem]
  rfl

end Resolved

/-- The result of a resolution, said without handles: `blocks` are what the lines of the body have
become. -/
structure LaidOut (d : Dialect) (lines : List Line) (r : Resolution) (blocks : List (List Line)) :
    Prop where
  nodup : (declaredNames d lines).Nodup
  target_lt : ∀ δ ∈ declarations d 0 lines, δ.target < (body d lines).length
  program : r.program.lines = blocks.flatten
  size : r.program.size = (Outline.sizes d lines).sum
  lengths : blocks.map List.length = Outline.sizes d lines
  becomes : ∀ {k : Nat} {l : Line}, (body d lines)[k]? = some l → ∃ block,
    blocks[k]? = some block ∧
      l.Becomes d r.symbols (Sizing.address (Outline.sizes d lines) k) block
  symbols : r.symbols = (declarations d 0 lines).map fun δ =>
    ⟨δ.name, Sizing.address (Outline.sizes d lines) δ.target⟩
  warnings : r.warnings = ((declarations d 0 lines).filter (·.name ∉ Outline.mentioned d lines)).map
    fun δ => .unusedLabel δ.name δ.line
  expanded : r.expanded = (body d lines).countP fun l => (l.mentioned? d).isSome
  relaxed : r.relaxed = ((body d lines).zip (Outline.sizes d lines)).countP
    fun x => (x.1.mentioned? d).isSome && x.2 == 1

theorem Program.laidOut {d : Dialect} {p : Program} (hp : p.Valid) {r : Resolution}
    (h : p.resolve d = .ok r) : ∃ blocks, LaidOut d p.lines r blocks := by
  obtain ⟨labels, bs, hlabels, hres⟩ := resolved hp h
  exact ⟨Resolved.linesOf bs, {
    nodup := (Label.exists_ofProgram_eq_ok.1 ⟨labels, hlabels⟩).2.1
    target_lt := hres.target_lt
    program := hres.flatten_linesOf
    size := hres.size_eq
    lengths := hres.map_length_linesOf
    becomes := hres.becomes_at hp
    symbols := hres.symbols_eq hp
    warnings := hres.warnings_eq
    expanded := hres.expanded_eq
    relaxed := hres.relaxed_eq }⟩

theorem LaidOut.length_eq {d : Dialect} {lines : List Line} {r : Resolution}
    {blocks : List (List Line)} (h : LaidOut d lines r blocks) :
    blocks.length = (body d lines).length := by
  rw [← Outline.length_sizes, ← h.lengths, List.length_map]

/-- A resolved program is one block for each line of the body, in the order of the body, and each
label has the address of the block of the line that it stands for. -/
theorem Program.resolve_blockwise {d : Dialect} {lines : List Line} {r : Resolution}
    (h : (ofLines lines).resolve d = .ok r) : ∃ blocks : List (List Line),
      r.program.lines = blocks.flatten ∧
      blocks.length = (body d lines).length ∧
      (∀ (k : Nat) (l : Line), (body d lines)[k]? = some l →
        ∃ block, blocks[k]? = some block ∧ l.Becomes d r.symbols (start blocks k) block) ∧
      r.symbols = ((declarations d 0 lines).map fun δ => ⟨δ.name, start blocks δ.target⟩) ∧
      ∀ δ ∈ declarations d 0 lines, δ.target < blocks.length := by
  have hp := valid_ofLines lines
  obtain ⟨labels, bs, -, hr⟩ := resolved hp h
  have hlines := lines_ofLines lines
  have hlen := hr.length_linesOf
  rw [hlines] at hlen
  have haddress :
      ∀ k, Sizing.address (Outline.sizes d lines) k = start (Resolved.linesOf bs) k := by
    intro k
    rw [← hlines, ← hr.map_length_linesOf, address_map_length]
  refine ⟨Resolved.linesOf bs, ?_, hlen, ?_, ?_, ?_⟩
  · exact hr.flatten_linesOf
  · intro k l hk
    rw [← hlines] at hk
    have hbecomes := hr.becomes_at hp hk
    rwa [hlines, haddress] at hbecomes
  · rw [hr.symbols_eq hp, hlines]
    simp only [haddress]
  · rw [hlen, ← hlines]
    exact hr.target_lt

/-- A label before a jump back to it and a move of its address. -/
theorem Program.resolve_blockwise_loop : ∃ r, (ofLines [⟨[".top"], 1⟩, ⟨["JEQ", ".top$r2"], 2⟩,
      ⟨["MOV", "r1", ".top"], 3⟩]).resolve {} = .ok r ∧
    ∃ blocks : List (List Line), r.program.lines = blocks.flatten ∧ blocks.length = 2 ∧
      r.symbols = [⟨".top", start blocks 0⟩] := by
  obtain ⟨r, h⟩ := exists_ok_of_isOk (x := (ofLines [⟨[".top"], 1⟩, ⟨["JEQ", ".top$r2"], 2⟩,
    ⟨["MOV", "r1", ".top"], 3⟩]).resolve {}) (by decide +kernel)
  obtain ⟨blocks, hlines, hlength, -, hsymbols, -⟩ := resolve_blockwise h
  exact ⟨r, h, blocks, hlines, hlength, hsymbols⟩

end CompactRisc
