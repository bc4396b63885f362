import CompactRisc.Proofs.Reassembly
import CompactRisc.Proofs.Relocation

/-!
# Addresses that two bytes do not hold

A reference in long form loads the two low bytes of an address. The length of a program is not
bounded, and no source is refused because of it. So a label can stand beyond the addresses that two
bytes hold; a load of its address then gives the address of some other word.

Results:
* `Resolved.address_lt`: a label has the address of a word of the program.
* `assembleLines_loads_modulo`: a reference in long form loads the address of its label modulo 65536,
  which is the address itself exactly if that is at most 65535.
* `assembleLines_loses_address`: a source that is assembled although a load misses its label.
-/
namespace CompactRisc

/-- The two words from `q` on load the value `v` into a register, the low byte first. -/
def LoadsAt (words : List Word) (q v : Nat) : Prop :=
  ∃ (r : Register) (low high : Nat),
    Decoded.at? words q = some ⟨.movil, [.register r, .immediate low]⟩ ∧
    Decoded.at? words (q + 1) = some ⟨.moviu, [.register r, .immediate high]⟩ ∧
    low + 256 * high = v

theorem LoadsAt.unique {words : List Word} {q v v' : Nat} (h : LoadsAt words q v)
    (h' : LoadsAt words q v') : v = v' := by
  obtain ⟨r, low, high, hlow, hhigh, rfl⟩ := h
  obtain ⟨r', low', high', hlow', hhigh', rfl⟩ := h'
  have hfirst : r = r' ∧ low = low' := by simpa using hlow.symm.trans hlow'
  have hsecond : r = r' ∧ high = high' := by simpa using hhigh.symm.trans hhigh'
  rw [hfirst.2, hsecond.2]

/-- What is loaded is the address itself if two bytes hold it, and another one if they do not. -/
theorem LoadsAt.exact_iff {words : List Word} {q a : Nat} (h : LoadsAt words q (a % 65536)) :
    LoadsAt words q a ↔ a ≤ 65535 := by
  refine ⟨fun ha => ?_, fun ha => ?_⟩
  · have hmod := h.unique ha
    omega
  · rwa [Nat.mod_eq_of_lt (by omega)] at h

/-- A reference has a displacement that leads to its label, or loads the address modulo 65536. -/
theorem Line.Lands.loads {d : Dialect} {words : List Word} {q a : Nat} {name : String} {l : Line}
    (h : l.Lands d words q a name) :
    (∃ i v, Decoded.at? words q = some ⟨i, [.immediate v]⟩ ∧ (q : Int) + 1 + v = a) ∨
      LoadsAt words q (a % 65536) := by
  cases h with
  | near _ _ _ hword hlands => exact .inl ⟨_, _, hword, hlands⟩
  | far _ _ _ _ hfirst hsecond _ hlands => exact .inr ⟨_, _, _, hfirst, hsecond, hlands⟩
  | load _ hfirst hsecond hlands => exact .inr ⟨_, _, _, hfirst, hsecond, hlands⟩

theorem LaidOut.lands {d : Dialect} {lines : List Line} {r : Resolution} {blocks : List (List Line)}
    (h : LaidOut d lines r blocks) {words : List Word} (hwords : r.program.encode = .ok words)
    {k : Nat} {l : Line} (hk : (body d lines)[k]? = some l) {name : String}
    (hname : l.mentioned? d = some name) : ∃ a, ⟨name, a⟩ ∈ r.symbols ∧
      l.Lands d words (Sizing.address (Outline.sizes d lines) k) a name := by
  obtain ⟨block, hblock, hbecomes⟩ := h.becomes hk
  refine hbecomes.lands hname hwords fun j line hj => ?_
  rw [h.program, ← h.lengths, address_map_length,
    getElem?_start hblock (List.getElem?_eq_some_iff.1 hj).1, hj]

theorem Resolved.address_lt {d : Dialect} {p : Program} {r : Resolution} {labels : Array Label}
    {bs : List Layout.Block} (hp : p.Valid) (h : Resolved d p r labels bs) {words : List Word}
    (hwords : r.program.encode = .ok words) {s : Symbol} (hs : s ∈ r.symbols) :
    s.address < words.length := by
  rw [h.symbols_eq hp] at hs
  obtain ⟨δ, hδ, rfl⟩ := List.mem_map.1 hs
  have hlt : δ.target < (Label.strip d p).entries.length := by
    rw [h.blocks.length_eq, h.length_eq]
    exact h.target_lt δ hδ
  have hpos := h.position (List.getElem?_eq_getElem hlt)
  have hlen : words.length = r.program.size := by
    rw [← (mapM_eq_ok.1 hwords).length_eq, Program.lines_eq_map_entries, List.length_map,
      Program.length_entries]
  rw [hlen]
  exact h.layout.valid.lt_size_of_position hpos

/-- Every reference of an assembled source either has a displacement that leads to its label, or
loads the address of the label modulo 65536. In the second case it loads the address itself exactly
if that is at most 65535, which it always is in a program of at most 65536 words. -/
theorem assembleLines_loads_modulo {d : Dialect} {raw : List String} {p : Program} {A : Assembly}
    (hA : assembleLines d raw = .ok A) (hp : preprocess d raw = .ok p) {id : LineId} {l : Line}
    {name : String} (hmem : (id, l) ∈ p.entries) (hbody : Label.declares d l = false)
    (hname : l.mentioned? d = some name) : ∃ a q,
      A.symbols.find? (·.name == name) = some ⟨name, a⟩ ∧ A.program.position id = some q ∧
      ((∃ i v, Decoded.at? A.words q = some ⟨i, [.immediate v]⟩ ∧ (q : Int) + 1 + v = a) ∨
        LoadsAt A.words q (a % 65536) ∧ (LoadsAt A.words q a ↔ a ≤ 65535) ∧
        (A.words.length ≤ 65536 → LoadsAt A.words q a)) := by
  obtain ⟨p', r, words, hp', hr, hwords, rfl⟩ := assembleLines_eq_ok.1 hA
  cases hp.symm.trans hp'
  have hvalid := (preprocess_eq_ok hp).1
  obtain ⟨labels, bs, hlabels, hres⟩ := Program.resolved hvalid hr
  obtain ⟨blocks, hout⟩ := Program.laidOut hvalid hr
  have hstrip : (id, l) ∈ (Label.strip d p).entries := by
    rw [Label.strip, Program.entries_retain]
    exact List.mem_filter.2 ⟨hmem, by simp [hbody]⟩
  obtain ⟨k, hk⟩ := List.getElem?_of_mem hstrip
  have hline : (body d p.lines)[k]? = some l := by
    rw [← Label.strip_lines, Program.lines_eq_map_entries, List.getElem?_map, hk, Option.map_some]
  obtain ⟨a, hsymbol, hlands⟩ := hout.lands hwords hline hname
  refine ⟨a, _, find?_of_mem (hres.nodup_names hvalid hlabels) hsymbol, hres.position hk,
    hlands.loads.imp_right fun hloads => ⟨hloads, hloads.exact_iff, fun hlen => ?_⟩⟩
  have hlt : a < words.length := hres.address_lt hvalid hwords hsymbol
  exact hloads.exact_iff.2 (by dsimp only at hlen; omega)

/-- A move of an address and a jump to it. -/
theorem assembleLines_loads_modulo_near : ∃ A p a q,
    assembleLines {} ["MOV r1 .end", "JUC .end$r2", ".end", "RET"] = .ok A ∧
    preprocess {} ["MOV r1 .end", "JUC .end$r2", ".end", "RET"] = .ok p ∧
    (0, ⟨["MOV", "r1", ".end"], 1⟩) ∈ p.entries ∧
    A.symbols.find? (·.name == ".end") = some ⟨".end", a⟩ ∧ A.program.position 0 = some q ∧
    ((∃ i v, Decoded.at? A.words q = some ⟨i, [.immediate v]⟩ ∧ (q : Int) + 1 + v = a) ∨
      LoadsAt A.words q (a % 65536) ∧ (LoadsAt A.words q a ↔ a ≤ 65535) ∧
      (A.words.length ≤ 65536 → LoadsAt A.words q a)) := by
  obtain ⟨A, hA⟩ := exists_ok_of_isOk (x := assembleLines {}
    ["MOV r1 .end", "JUC .end$r2", ".end", "RET"]) (by decide +kernel)
  obtain ⟨p, -, -, hp, -⟩ := assembleLines_eq_ok.1 hA
  have hfirst : (·.entries.head?) <$> preprocess {} ["MOV r1 .end", "JUC .end$r2", ".end", "RET"] =
      .ok (some (0, ⟨["MOV", "r1", ".end"], 1⟩)) := by decide +kernel
  rw [hp] at hfirst
  have hmem := List.mem_of_head? (Except.ok.inj hfirst)
  obtain ⟨a, q, hresult⟩ := assembleLines_loads_modulo hA hp hmem (by decide +kernel)
    (show Line.mentioned? {} ⟨["MOV", "r1", ".end"], 1⟩ = some ".end" by decide +kernel)
  exact ⟨A, p, a, q, hA, hp, hmem, hresult⟩

/-! ## A label beyond the addresses that two bytes hold -/

/-- A move of the address of a label that stands after `n` other words. -/
def farLabel (n : Nat) : List String :=
  "MOV r1 .x" :: (List.replicate n "NOP" ++ [".x", "RET"])

namespace FarLabel

def fill (n : Nat) : List Line := ((List.replicate n ["NOP"]).zipIdx 2).map fun x => ⟨x.1, x.2⟩

theorem tokens_of_mem_fill {n : Nat} {l : Line} (h : l ∈ fill n) : l.tokens = ["NOP"] := by
  obtain ⟨x, hx, rfl⟩ := List.mem_map.1 h
  have hfst : x.1 ∈ List.replicate n ["NOP"] := by
    rw [← List.zipIdx_map_fst 2 (List.replicate n ["NOP"])]
    exact List.mem_map_of_mem hx
  exact List.eq_of_mem_replicate hfst

theorem length_fill (n : Nat) : (fill n).length = n := by simp [fill]

def lines (n : Nat) : List Line :=
  ⟨["MOV", "r1", ".x"], 1⟩ :: (fill n ++ [⟨[".x"], n + 2⟩, ⟨["RET"], n + 3⟩])

theorem lines_eq (n : Nat) : Source.lines {} (farLabel n) = lines n := by
  have hmov : Source.tokens {} "MOV r1 .x" = ["MOV", "r1", ".x"] := by decide
  have hnop : Source.tokens {} "NOP" = ["NOP"] := by decide
  have hx : Source.tokens {} ".x" = [".x"] := by decide
  have hret : Source.tokens {} "RET" = ["RET"] := by decide
  rw [Source.lines_eq_numbered]
  · simp [farLabel, Line.numbered, lines, fill, hmov, hnop, hx, hret, List.zipIdx_append,
      Nat.add_comm 2 n]
  · intro r hr
    simp only [farLabel, List.mem_cons, List.mem_append, List.mem_replicate, List.not_mem_nil,
      or_false] at hr
    rcases hr with rfl | ⟨-, rfl⟩ | rfl | rfl <;> simp [hmov, hnop, hx, hret]

theorem forall_mem_lines {n : Nat} {P : List String → Prop} (hmov : P ["MOV", "r1", ".x"])
    (hnop : P ["NOP"]) (hx : P [".x"]) (hret : P ["RET"]) : ∀ l ∈ lines n, P l.tokens := by
  intro l hl
  simp only [lines, List.mem_cons, List.mem_append, List.not_mem_nil, or_false] at hl
  rcases hl with rfl | hfill | rfl | rfl
  · exact hmov
  · rw [tokens_of_mem_fill hfill]
    exact hnop
  · exact hx
  · exact hret

theorem declares_of_mem_fill {n : Nat} {l : Line} (h : l ∈ fill n) :
    Label.declares {} l = false := by
  rw [Label.declares, Line.first, tokens_of_mem_fill h]
  decide

theorem body_fill (n : Nat) : body {} (fill n) = fill n :=
  List.filter_eq_self.2 fun l hl => by simp [declares_of_mem_fill hl]

theorem declarations_fill (n k : Nat) : declarations {} k (fill n) = [] := by
  rw [← List.map_eq_nil_iff, map_name_declarations, declaredNames, List.map_eq_nil_iff,
    List.filter_eq_nil_iff]
  exact fun l hl => by simp [declares_of_mem_fill hl]

theorem declares_lines (source : Nat) :
    Label.declares {} ⟨["MOV", "r1", ".x"], source⟩ = false ∧
      Label.declares {} ⟨[".x"], source⟩ = true ∧ Label.declares {} ⟨["RET"], source⟩ = false := by
  show Dialect.isLabel {} "MOV" = false ∧ Dialect.isLabel {} ".x" = true ∧
    Dialect.isLabel {} "RET" = false
  decide

theorem body_lines (n : Nat) :
    body {} (lines n) = ⟨["MOV", "r1", ".x"], 1⟩ :: (fill n ++ [⟨["RET"], n + 3⟩]) := by
  have hfill := body_fill n
  unfold body at hfill ⊢
  simp [lines, List.filter_append, hfill, declares_lines]

theorem declarations_lines (n : Nat) :
    declarations {} 0 (lines n) = [⟨".x", n + 1, n + 2⟩] := by
  rw [lines, declarations, if_neg (by simp [declares_lines]), declarations_append,
    declarations_fill, body_fill, length_fill, Nat.add_comm _ n]
  simp [declarations, declares_lines, Line.first]

theorem isDefine_lines {n : Nat} : ∀ l ∈ lines n, Dialect.isDefine {} l.first = false :=
  forall_mem_lines (P := fun tokens => Dialect.isDefine {} (tokens.headD "") = false)
    (by decide) (by decide) (by decide) (by decide)

theorem encodes_of_isOk {tokens : List String} (h : (Line.encode ⟨tokens, 0⟩).isOk = true)
    (source : Nat) : ∃ w, Line.encode ⟨tokens, source⟩ = .ok w := by
  obtain ⟨w, hw⟩ := exists_ok_of_isOk h
  exact ⟨w, Line.encodes_tokens.2 hw source⟩

theorem labelTokens_lines :
    ["MOV", "r1", ".x"].filter (Dialect.isLabel {}) = [".x"] ∧
      ["NOP"].filter (Dialect.isLabel {}) = [] ∧ ["RET"].filter (Dialect.isLabel {}) = [] := by
  decide

theorem accepted_line (n : Nat) : ∀ l ∈ lines n, Dialect.isLabel {} l.first = false →
    l.Accepted {} [".x"] := by
  intro l hl hfirst
  refine forall_mem_lines (n := n) (P := fun tokens => Dialect.isLabel {} (tokens.headD "") = false →
    ∀ source, Line.Accepted {} [".x"] ⟨tokens, source⟩) ?_ ?_ ?_ ?_ l hl hfirst l.source
  · intro _ source
    have hparts : ".x".toList.splitOn '$' =
        ".x".toList :: ((none : Option Register).map fun r => r.name.toList).toList := by
      decide
    exact .move (r := 1) rfl labelTokens_lines.1 (List.mem_singleton_self _) hparts
  · exact fun _ source => .plain labelTokens_lines.2.1 (encodes_of_isOk (by decide) source)
  · intro hlabel
    exact absurd hlabel (by decide)
  · exact fun _ source => .plain labelTokens_lines.2.2 (encodes_of_isOk (by decide) source)

theorem accepted (n : Nat) : Source.Accepted {} (lines n) := by
  have hnone : (lines n).filter (Dialect.isDefine {} ·.first) = [] :=
    List.filter_eq_nil_iff.2 fun l hl => by simp [isDefine_lines l hl]
  have hlabels : ((lines n).filter (Dialect.isLabel {} ·.first)).map Line.first = [".x"] := by
    have hnames := map_name_declarations {} (lines n) 0
    rw [declarations_lines] at hnames
    exact hnames.symm
  refine ⟨fun l hl hdefine => ?_, by rw [hnone]; exact List.nodup_nil, ?_⟩
  · rw [isDefine_lines l hl] at hdefine
    cases hdefine
  rw [Defines.rest_of_none isDefine_lines]
  refine ⟨?_, by rw [hlabels]; exact List.nodup_singleton _, fun l hl => ?_, ?_⟩
  · exact forall_mem_lines (P := fun tokens => Dialect.isLabel {} (tokens.headD "") = true →
      tokens.length = 1 ∧ tokens.headD "" ≠ ".") (by decide) (by decide)
      (by decide) (by decide)
  · have hlast : (lines n).getLast? = some ⟨["RET"], n + 3⟩ := by
      simp [lines, List.getLast?_cons, List.getLast?_append]
    cases hlast.symm.trans hl
    exact (declares_lines _).2.2
  · rw [hlabels]
    exact accepted_line n

theorem items_lines (n : Nat) :
    Outline.items {} (lines n) = .load (n + 1) :: List.replicate (n + 1) .plain := by
  have hmov : Outline.item {} [⟨".x", n + 1, n + 2⟩] ⟨["MOV", "r1", ".x"], 1⟩ = .load (n + 1) := by
    have hname : Line.mentioned? {} ⟨["MOV", "r1", ".x"], 1⟩ = some ".x" := by decide
    have hshape : (Instruction.ofMnemonic? "MOV").map Instruction.shape =
        some Instruction.mov.shape := by decide
    rw [Outline.item, hname]
    simp [Line.first, hshape, Instruction.mov, Outline.target]
  have hfill : (fill n).map (Outline.item {} [⟨".x", n + 1, n + 2⟩]) =
      List.replicate n .plain := by
    refine List.eq_replicate_iff.2 ⟨by rw [List.length_map, length_fill], fun item hitem => ?_⟩
    obtain ⟨l, hl, rfl⟩ := List.mem_map.1 hitem
    refine Outline.item_of_labelTokens ?_
    rw [Line.labelTokens, tokens_of_mem_fill hl, labelTokens_lines.2.1]
  have hret : Outline.item {} [⟨".x", n + 1, n + 2⟩] ⟨["RET"], n + 3⟩ = .plain :=
    Outline.item_of_labelTokens labelTokens_lines.2.2
  rw [Outline.items, body_lines, declarations_lines, List.map_cons, List.map_append, hmov, hfill,
    List.map_singleton, hret, ← List.replicate_succ']

/-- The move has two words, and every other line has one. -/
theorem address_label (n : Nat) : Sizing.address (Outline.sizes {} (lines n)) (n + 1) = n + 2 := by
  have hsizes : Outline.sizes {} (lines n) = 2 :: List.replicate (n + 1) 1 := by
    rw [Outline.sizes, items_lines, Sizing.finalSizes_of_no_transfer]
    · simp [Sizing.Item.size]
    · simp
  rw [hsizes, Sizing.address, List.take_succ_cons, List.sum_cons, List.take_replicate,
    List.sum_replicate_nat]
  omega

/-- The label has its true address among the symbols, and the move loads it modulo 65536. -/
theorem assembles (n : Nat) : ∃ A, assembleLines {} (farLabel n) = .ok A ∧
    A.symbols = [⟨".x", n + 2⟩] ∧ LoadsAt A.words 0 ((n + 2) % 65536) := by
  have hregisters : ∀ r : Register, Dialect.isLabel {} r.name = false := by decide
  have haccepted : Source.Accepted {} (Source.lines {} (farLabel n)) := by
    rw [lines_eq]
    exact accepted n
  obtain ⟨A, hA⟩ := (Source.accepted_iff hregisters (farLabel n)).2 haccepted
  refine ⟨A, hA, ?_⟩
  obtain ⟨p, r, words, hp, hr, hwords, rfl⟩ := assembleLines_eq_ok.1 hA
  obtain ⟨hvalid, -, hlines⟩ := preprocess_eq_ok hp
  rw [lines_eq, Defines.rest_of_none isDefine_lines] at hlines
  obtain ⟨blocks, hout⟩ := Program.laidOut hvalid hr
  rw [hlines] at hout
  have hsymbols : r.symbols = [⟨".x", n + 2⟩] := by
    rw [hout.symbols, declarations_lines, List.map_singleton, address_label]
  have hmov : (body {} (lines n))[0]? = some ⟨["MOV", "r1", ".x"], 1⟩ := by rw [body_lines]; rfl
  obtain ⟨a, hsymbol, hlands⟩ := hout.lands hwords hmov
    (show Line.mentioned? {} ⟨["MOV", "r1", ".x"], 1⟩ = some ".x" by decide)
  rw [hsymbols] at hsymbol
  cases List.mem_singleton.1 hsymbol
  refine ⟨hsymbols, ?_⟩
  cases hlands with
  | near hshape | far hshape => exact absurd (congrArg List.length hshape) (by simp)
  | load _ hfirst hsecond hlands => exact ⟨_, _, _, hfirst, hsecond, hlands⟩

end FarLabel

/-- A label at the address 65536 is loaded as 0. The source is assembled all the same. -/
theorem assembleLines_loses_address : ∃ A, assembleLines {} (farLabel 65534) = .ok A ∧
    A.symbols = [⟨".x", 65536⟩] ∧ LoadsAt A.words 0 0 ∧ ¬LoadsAt A.words 0 65536 := by
  obtain ⟨A, hA, hsymbols, hloads⟩ := FarLabel.assembles 65534
  refine ⟨A, hA, hsymbols, hloads, fun hexact => ?_⟩
  have hzero := hloads.unique hexact
  omega

end CompactRisc
