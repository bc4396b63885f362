import CompactRisc.Proofs.Defines
import CompactRisc.Proofs.Generated
import CompactRisc.Proofs.Rewriting

/-!
# Every reference lands on its label

The words of an assembled source do what its lines say about labels: a reference in short form has
the displacement that leads to the address of its label, and every other one loads that address.

Results:
* `assembleLines_eq_ok`: what an assembled source is made of.
* `Line.Becomes.lands`: the words of a line that mentions a label, by the form of its block.
* `assembleLines_lands`: this for every reference of a source.
-/
namespace CompactRisc

theorem assembleLines_eq_ok {d : Dialect} {raw : List String} {A : Assembly} :
    assembleLines d raw = .ok A ↔ ∃ p r words, preprocess d raw = .ok p ∧ p.resolve d = .ok r ∧
      r.program.encode = .ok words ∧ A = ⟨words, r.program, r.symbols, r.warnings⟩ := by
  unfold assembleLines
  simp only [bind_eq_ok, pure_eq_ok, Except.ok.injEq, eq_comm (a := A)]
  refine ⟨fun h => ?_, fun h => ?_⟩
  · obtain ⟨p, hp, r, hr, words, hwords, hA⟩ := h
    exact ⟨p, r, words, hp, hr, hwords, hA⟩
  · obtain ⟨p, r, words, hp, hr, hwords, hA⟩ := h
    exact ⟨p, hp, r, hr, words, hwords, hA⟩

def Decoded.at? (words : List Word) (q : Nat) : Option Decoded := words[q]?.bind ofWord?

theorem Decoded.at?_of_means {p : Program} {words : List Word} (h : p.encode = .ok words) {q : Nat}
    {l : Line} {i : Instruction} {operands : List Operand} (hl : p.lines[q]? = some l)
    (hmeans : l.Means i operands) : at? words q = some ⟨i, operands⟩ := by
  obtain ⟨w, hw, hdecode⟩ := hmeans
  obtain ⟨w', hw', hencode⟩ := getElem?_right_of_forall₂ (mapM_eq_ok.1 h) hl
  rw [hw] at hencode
  cases hencode
  rw [at?, hw', Option.bind_some, hdecode]

/-- The words from `q` on do what the line says about the label `name`, whose address is `a`. -/
inductive Line.Lands (d : Dialect) (words : List Word) (q a : Nat) (name : String) (l : Line) : Prop
  /-- A branch on the condition of the jump, or a relative call, that leads to the address. -/
  | near {i short : Instruction} {token : String} {v : Int} (shape : l.tokens = [i.mnemonic, token])
      (mem : i ∈ Instruction.catalog)
      (form : (∃ c, i.shape = .jump c ∧ short.shape = .branch c) ∨
        (i.shape = .call ∧ short.shape = .callNear))
      (word : Decoded.at? words q = some ⟨short, [.immediate v]⟩)
      (lands : (q : Int) + 1 + v = a)
  /-- The two loads of the address, and the jump or call itself through the loading register. -/
  | far {i : Instruction} {token : String} {r : Register} {low high : Nat}
      (shape : l.tokens = [i.mnemonic, token]) (mem : i ∈ Instruction.catalog)
      (transfer : i.isTransfer = true)
      (loading : token.toList.splitOn d.loadSeparator = [name.toList, r.name.toList])
      (first : Decoded.at? words q = some ⟨.movil, [.register r, .immediate low]⟩)
      (second : Decoded.at? words (q + 1) = some ⟨.moviu, [.register r, .immediate high]⟩)
      (third : Decoded.at? words (q + 2) = some ⟨i, [.register r]⟩)
      (lands : low + 256 * high = a % 65536)
  /-- The two loads of the address into the destination of the move. -/
  | load {source : String} {r : Register} {low high : Nat}
      (shape : l.tokens = ["MOV", r.name, source])
      (first : Decoded.at? words q = some ⟨.movil, [.register r, .immediate low]⟩)
      (second : Decoded.at? words (q + 1) = some ⟨.moviu, [.register r, .immediate high]⟩)
      (lands : low + 256 * high = a % 65536)

theorem bytes_eq (a : Nat) : a % 256 + 256 * (a / 256 % 256) = a % 65536 := by omega

/-- The lines of a block land if they stand at the place that the block was made for. -/
theorem Line.Becomes.lands {d : Dialect} {symbols : List Symbol} {q : Nat} {l : Line}
    {block : List Line} (h : l.Becomes d symbols q block) {name : String}
    (hname : l.mentioned? d = some name) {p : Program} {words : List Word}
    (hwords : p.encode = .ok words)
    (hblock : ∀ (j : Nat) (line : Line), block[j]? = some line → p.lines[q + j]? = some line) :
    ∃ a, ⟨name, a⟩ ∈ symbols ∧ l.Lands d words q a name := by
  cases h with
  | plain hnone =>
    rw [Outline.mentioned?_eq_none.2 hnone] at hname
    cases hname
  | @load r a _ source hmentions hsymbol hshape =>
    cases hname.symm.trans hmentions
    refine ⟨a, hsymbol, .load hshape ?_ ?_ (bytes_eq a)⟩
    · exact Decoded.at?_of_means hwords (hblock 0 _ rfl) (means_low r a l.source)
    · exact Decoded.at?_of_means hwords (hblock 1 _ rfl) (means_high r a l.source)
  | @far i r a _ token hmentions hsymbol hi htransfer hshape hloading =>
    cases hname.symm.trans hmentions
    refine ⟨a, hsymbol, .far hshape hi htransfer hloading ?_ ?_ ?_ (bytes_eq a)⟩
    · exact Decoded.at?_of_means hwords (hblock 0 _ rfl) (means_low r a l.source)
    · exact Decoded.at?_of_means hwords (hblock 1 _ rfl) (means_high r a l.source)
    · exact Decoded.at?_of_means hwords (hblock 2 _ rfl)
        (means_through hi htransfer r l.source)
  | @near i short r a _ token least greatest hmentions hsymbol hi hform hshape _ hrange hleast
      hgreatest =>
    cases hname.symm.trans hmentions
    obtain ⟨hshort, hpair⟩ := Instruction.shortForm?_eq_some hform
    refine ⟨a, hsymbol, .near hshape hi hpair ?_ (show (q : Int) + 1 + (a - q - 1) = a by omega)⟩
    exact Decoded.at?_of_means hwords (hblock 0 _ rfl)
      (means_short hshort hrange hleast hgreatest l.source)

theorem find?_of_mem {symbols : List Symbol} (hnd : (symbols.map Symbol.name).Nodup) {s : Symbol}
    (hs : s ∈ symbols) : symbols.find? (·.name == s.name) = some s := by
  induction symbols with
  | nil => cases hs
  | cons t symbols ih =>
    obtain ⟨hnot, hnd⟩ := List.nodup_cons.1 hnd
    rcases List.mem_cons.1 hs with rfl | hs
    · simp
    · have hne : (t.name == s.name) = false :=
        beq_false_of_ne fun he => hnot (he ▸ List.mem_map_of_mem hs)
      rw [List.find?_cons, hne]
      exact ih hnd hs

theorem Resolved.nodup_names {d : Dialect} {p : Program} {r : Resolution} {labels : Array Label}
    {bs : List Layout.Block} (hp : p.Valid) (h : Resolved d p r labels bs)
    (hlabels : Label.ofProgram d p = .ok labels) : (r.symbols.map Symbol.name).Nodup := by
  rw [h.symbols_eq hp, List.map_map]
  have hnames := map_name_declarations d p.lines 0
  have hnd := (Label.exists_ofProgram_eq_ok.1 ⟨labels, hlabels⟩).2.1
  rw [← hnames] at hnd
  exact hnd

/-- Every reference of an assembled source lands on its label. -/
theorem assembleLines_lands {d : Dialect} {raw : List String} {p : Program} {A : Assembly}
    (hA : assembleLines d raw = .ok A) (hp : preprocess d raw = .ok p) {id : LineId} {l : Line}
    {name : String} (hmem : (id, l) ∈ p.entries) (hbody : Label.declares d l = false)
    (hname : l.mentioned? d = some name) : ∃ a q,
      A.symbols.find? (·.name == name) = some ⟨name, a⟩ ∧ A.program.position id = some q ∧
        l.Lands d A.words q a name := by
  obtain ⟨p', r, words, hp', hr, hwords, rfl⟩ := assembleLines_eq_ok.1 hA
  cases hp.symm.trans hp'
  have hvalid := (preprocess_eq_ok hp).1
  obtain ⟨labels, bs, hlabels, hres⟩ := Program.resolved hvalid hr
  have hstrip : (id, l) ∈ (Label.strip d p).entries := by
    rw [Label.strip, Program.entries_retain]
    exact List.mem_filter.2 ⟨hmem, by simp [hbody]⟩
  obtain ⟨k, hk⟩ := List.getElem?_of_mem hstrip
  obtain ⟨block, hblock, hbecomes⟩ := hres.becomes hvalid hk
  have hplace : ∀ (j : Nat) (line : Line), block[j]? = some line →
      r.program.lines[Sizing.address (Outline.sizes d p.lines) k + j]? = some line := by
    intro j line hj
    rw [hres.flatten_linesOf, ← hres.map_length_linesOf, address_map_length,
      getElem?_start hblock (List.getElem?_eq_some_iff.1 hj).1, hj]
  obtain ⟨a, hsymbol, hlands⟩ := hbecomes.lands hname hwords hplace
  exact ⟨a, _, find?_of_mem (hres.nodup_names hvalid hlabels) hsymbol,
    hres.position hk, hlands⟩

/-- A jump back over a move of an address. The destination of the move comes from a define. -/
theorem assembleLines_lands_back : ∃ A p a q,
    assembleLines {} ["`DEFINE ADDR r1", ".top", "MOV ADDR .top", "JEQ .top$r2 # again"] = .ok A ∧
      preprocess {} ["`DEFINE ADDR r1", ".top", "MOV ADDR .top", "JEQ .top$r2 # again"] = .ok p ∧
      (3, ⟨["JEQ", ".top$r2"], 4⟩) ∈ p.entries ∧
      A.symbols.find? (·.name == ".top") = some ⟨".top", a⟩ ∧ A.program.position 3 = some q ∧
        Line.Lands {} A.words q a ".top" ⟨["JEQ", ".top$r2"], 4⟩ := by
  obtain ⟨A, hA⟩ := exists_ok_of_isOk (x := assembleLines {}
    ["`DEFINE ADDR r1", ".top", "MOV ADDR .top", "JEQ .top$r2 # again"]) (by decide +kernel)
  obtain ⟨p, -, -, hp, -⟩ := assembleLines_eq_ok.1 hA
  have hentries : p.entries = [(1, ⟨[".top"], 2⟩), (2, ⟨["MOV", "r1", ".top"], 3⟩),
      (3, ⟨["JEQ", ".top$r2"], 4⟩)] := by
    have hall : Program.entries <$> preprocess {}
        ["`DEFINE ADDR r1", ".top", "MOV ADDR .top", "JEQ .top$r2 # again"] =
          .ok [(1, ⟨[".top"], 2⟩), (2, ⟨["MOV", "r1", ".top"], 3⟩),
            (3, ⟨["JEQ", ".top$r2"], 4⟩)] := by decide +kernel
    rw [hp] at hall
    exact Except.ok.inj hall
  have hmem : (3, ⟨["JEQ", ".top$r2"], 4⟩) ∈ p.entries := by simp [hentries]
  have hname : Line.mentioned? {} ⟨["JEQ", ".top$r2"], 4⟩ = some ".top" := by decide +kernel
  obtain ⟨a, q, hsymbol, hpos, hlands⟩ :=
    assembleLines_lands hA hp hmem (by decide +kernel) hname
  exact ⟨A, p, a, q, hA, hp, hmem, hsymbol, hpos, hlands⟩

end CompactRisc
