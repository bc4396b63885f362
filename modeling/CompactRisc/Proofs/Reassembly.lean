import CompactRisc.Proofs.Acceptance
import CompactRisc.Proofs.Tokens

/-!
# Programs that are read back

The dump of an assembled program is source text again. No define, label or comment is left in it,
and every token of it is one word, so that reading the dump gives the lines that were encoded.

Results:
* `Line.encode_eq_ok`: the lines that the encoder takes, and their words.
* `Program.resolve_plain`: a program without labels is resolved to itself.
* `assemble_plain`: a text without defines and labels is assembled to the words of its lines.
* `Line.Written.plain_tokens`, `Defines.legible_of_mem_rest`: what is written into a line, by the
  resolver or by a define, can stand in source text.
* `Program.resolve_idempotent`: a program that has been resolved is its own resolution.
* `assemble_dump`: the dump of an assembled program is assembled to the same words.
-/
namespace CompactRisc

/-! ## Lines that are encoded -/

/-- A line is an instruction with its operands or a number by itself. -/
theorem Line.encode_eq_ok {l : Line} {w : Word} : l.encode = .ok w ↔
    (∃ i, Instruction.ofMnemonic? l.first = some i ∧ i.assemble l.tokens = .ok w) ∨
      (Instruction.ofMnemonic? l.first = none ∧ l.tokens.length ≤ 1 ∧
        ∃ v, Literal.read? l.first = some v ∧ (-32768 ≤ v ∧ v ≤ 65535) ∧
          BitVec.ofInt 16 v = w) := by
  unfold encode
  cases hi : Instruction.ofMnemonic? l.first with
  | some i => simp [Mention.atLine_eq_ok]
  | none =>
    unfold encodeNumber
    cases hv : Literal.read? l.first with
    | none => simp
    | some v =>
      dsimp only
      split
      · rename_i hlen
        simp [Nat.not_le.2 hlen]
      · rename_i hlen
        split
        · rename_i hrange
          simp [Nat.not_lt.1 hlen, hrange]
        · rename_i hrange
          simp [hrange]

/-- A line with these tokens has this word, whatever its number is. -/
def Line.Encodes (tokens : List String) (w : Word) : Prop :=
  ∀ source, Line.encode ⟨tokens, source⟩ = .ok w

theorem Line.encodes_tokens {l : Line} {w : Word} : Encodes l.tokens w ↔ l.encode = .ok w := by
  refine ⟨fun h => h l.source, fun h source => ?_⟩
  have hcases := encode_eq_ok.1 h
  exact encode_eq_ok.2 hcases

theorem Line.mapM_encode {lines : List Line} {words : List Word} :
    lines.mapM Line.encode = .ok words ↔ List.Forall₂ Encodes (lines.map Line.tokens) words := by
  rw [mapM_eq_ok, List.forall₂_map_left_iff]
  simp only [encodes_tokens]

theorem Line.length_tokens_of_encode {l : Line} {w : Word} (h : l.encode = .ok w) :
    l.tokens.length ≤ 3 := by
  rcases encode_eq_ok.1 h with ⟨i, -, hw⟩ | ⟨-, hlen, -⟩
  · obtain ⟨operands, hread, -⟩ := map_eq_ok.1 hw
    have hlen := (Mention.exists_readOperands.1 ⟨operands, hread⟩).1
    have hslots : i.slots.length ≤ 2 := by
      unfold Instruction.slots
      cases i.shape <;> simp [Shape.slots]
    omega
  · omega

/-- No literal starts with the character that the define keyword starts with. -/
theorem Literal.isDefine_of_read? {t : String} {v : Int} (h : read? t = some v) :
    Dialect.isDefine {} t = false := by
  rw [Bool.eq_false_iff]
  intro hdefine
  have hlower : t.toList.map Char.toLower = ['`', 'd', 'e', 'f', 'i', 'n', 'e'] :=
    LawfulBEq.eq_of_beq hdefine
  cases ht : t.toList with
  | nil =>
    rw [ht] at hlower
    cases hlower
  | cons c cs =>
    rw [ht, List.map_cons] at hlower
    have hc : c = '`' := by
      have hval : c.toLower = '`' := (List.cons.inj hlower).1
      unfold Char.toLower at hval
      split at hval
      · rename_i hupper
        have hsum : c.val + 32 = 96 := congrArg Char.val hval
        have hleast : (65 : UInt32) ≤ c.val := hupper.1
        have hgreatest : c.val ≤ 90 := hupper.2
        grind
      · exact hval
    have hread : read? t = none := by
      rw [read?, ht, hc, List.filter_cons_of_pos (by decide)]
      rfl
    rw [hread] at h
    cases h

theorem Instruction.isDefine_mnemonic :
    ∀ i ∈ Instruction.catalog, Dialect.isDefine {} i.mnemonic = false := by decide +kernel

theorem Line.isDefine_of_encode {l : Line} {w : Word} (h : l.encode = .ok w) :
    Dialect.isDefine {} l.first = false := by
  rcases encode_eq_ok.1 h with ⟨i, hi, -⟩ | ⟨-, -, v, hv, -⟩
  · obtain ⟨hmem, hfirst⟩ := Instruction.ofMnemonic?_eq_some.1 hi
    rw [← hfirst]
    exact Instruction.isDefine_mnemonic i hmem
  · exact Literal.isDefine_of_read? hv

/-! ## Programs without defines and labels -/

theorem Line.declares_of_labelTokens {d : Dialect} {l : Line} (hne : l.tokens ≠ [])
    (hnone : l.labelTokens d = []) : Label.declares d l = false := by
  obtain ⟨t, tokens, htokens⟩ := List.exists_cons_of_ne_nil hne
  rw [labelTokens, htokens, List.filter_eq_nil_iff] at hnone
  have hfirst := hnone t List.mem_cons_self
  rw [Label.declares, Line.first, htokens]
  simpa using hfirst

theorem Label.ofProgram_of_none {d : Dialect} {p : Program}
    (h : ∀ l ∈ p.lines, declares d l = false) : ofProgram d p = .ok #[] := by
  have hscan : p.ids.foldlM (Scan.read d p) {} = .ok {} := by
    refine foldlM_eq_ok_self fun id hid => ?_
    rw [Scan.read, h _ (List.mem_map_of_mem hid)]
    rfl
  rw [ofProgram, hscan]
  rfl

theorem Layout.expandLine_of_none {d : Dialect} {s : Layout} {id : LineId}
    (h : (s.program.line id).labelTokens d = []) : s.expandLine d id = .ok s := by
  rw [expandLine, Mention.find_eq_none.2 h]
  rfl

theorem Program.resolve_plain {d : Dialect} {p : Program} (hp : p.Valid)
    (h : ∀ l ∈ p.lines, Label.declares d l = false ∧ l.labelTokens d = []) :
    p.resolve d = .ok ⟨p, [], [], 0, 0⟩ := by
  have hlabels := Label.ofProgram_of_none fun l hl => (h l hl).1
  have hstrip : Label.strip d p = p := retain_eq_self hp fun l hl => by simp [(h l hl).1]
  have hexpand : Layout.expand d ⟨p, #[], #[]⟩ = .ok ⟨p, #[], #[]⟩ := foldlM_eq_ok_self fun id hid =>
    Layout.expandLine_of_none (h _ (List.mem_map_of_mem hid)).2
  rw [resolve, Layout.ofProgram, hlabels, ok_bind, hstrip, pure_eq_ok, ok_bind, hexpand]
  rfl

theorem Defines.table_of_none {d : Dialect} {lines : List Line}
    (h : ∀ l ∈ lines, d.isDefine l.first = false) : table d lines = [] := by
  rw [table, List.filter_eq_nil_iff.2 fun l hl => by simp [h l hl], List.map_nil]

theorem Defines.rest_of_none {d : Dialect} {lines : List Line}
    (h : ∀ l ∈ lines, d.isDefine l.first = false) : rest d lines = lines := by
  have hfilter : lines.filter (!d.isDefine ·.first) = lines :=
    List.filter_eq_self.2 fun l hl => by simp [h l hl]
  rw [rest, hfilter, table_of_none h]
  exact (List.map_congr_left fun l _ => by simp).trans (List.map_id lines)

theorem assemble_plain {d : Dialect} {text : String} {lines : List Line} {words : List Word}
    (hlines : Source.lines d (Text.lines text) = lines)
    (hplain : ∀ l ∈ lines, d.isDefine l.first = false ∧ Label.declares d l = false ∧
      l.labelTokens d = [])
    (hwords : lines.mapM Line.encode = .ok words) :
    ∃ A, assemble d text = .ok A ∧ A.words = words ∧ A.program.lines = lines ∧ A.symbols = [] ∧
      A.warnings = [] := by
  have hdefines : ∀ l ∈ lines, d.isDefine l.first = false := fun l hl => (hplain l hl).1
  obtain ⟨p, hp⟩ : ∃ p, preprocess d (Text.lines text) = .ok p := by
    rw [exists_preprocess_eq_ok, hlines]
    refine ⟨fun l hl hdefine => ?_, ?_⟩
    · exact absurd hdefine (by simp [hdefines l hl])
    · rw [Defines.table_of_none hdefines]
      exact List.nodup_nil
  obtain ⟨hvalid, -, hrest⟩ := preprocess_eq_ok hp
  rw [hlines, Defines.rest_of_none hdefines] at hrest
  have hr := Program.resolve_plain hvalid fun l hl => (hplain l (hrest ▸ hl)).2
  have hencode : p.encode = .ok words := by rw [Program.encode, hrest, hwords]
  exact ⟨_, assembleLines_eq_ok.2 ⟨p, _, words, hp, hr, hencode, rfl⟩, rfl, hrest, rfl, rfl⟩

/-- The same for the tokens of the lines, in the standard dialect, in which no line that is encoded
is a define. -/
theorem assemble_numbered {text : String} {tokens : List (List String)} {words : List Word}
    (hlines : Source.lines {} (Text.lines text) = Line.numbered tokens)
    (hplain : ∀ t ∈ tokens, t ≠ [] ∧ t.filter (Dialect.isLabel {}) = [])
    (hwords : List.Forall₂ Line.Encodes tokens words) :
    ∃ A, assemble {} text = .ok A ∧ A.words = words ∧ A.program.lines = Line.numbered tokens ∧
      A.symbols = [] ∧ A.warnings = [] := by
  rw [← Line.map_tokens_numbered tokens] at hwords hplain
  refine assemble_plain hlines (fun l hl => ?_) (Line.mapM_encode.2 hwords)
  obtain ⟨hne, hnone⟩ := hplain _ (List.mem_map_of_mem hl)
  obtain ⟨w, hw⟩ := exists_mapM_eq_ok.1 ⟨words, Line.mapM_encode.2 hwords⟩ l hl
  exact ⟨Line.isDefine_of_encode hw, Line.declares_of_labelTokens hne hnone, hnone⟩

/-! ## Tokens that are written -/

namespace Source

theorem plain_mnemonic : ∀ i ∈ Instruction.catalog, Plain {} i.mnemonic := by decide +kernel

theorem plain_register : ∀ r : Register, Plain {} r.name := by decide +kernel

theorem isBlank_digitChar : ∀ m < 16, Text.isBlank (Nat.digitChar m) = false := by decide

/-- A text starts with the mark of a comment or a label if its first character does. -/
theorem plain_ofList {c : Char} {cs : List Char} (hblank : Text.isBlank c = false)
    (hcomment : c ≠ '#') (hlabel : c ≠ '.') (h : ∀ x ∈ cs, Text.isBlank x = false) :
    Plain {} (String.ofList (c :: cs)) := by
  have hmark : ∀ m : Char, c ≠ m →
      Text.startsWith (String.ofList (c :: cs)) (String.ofList [m]) = false := by
    intro m hm
    rw [Text.startsWith, String.toList_ofList, String.toList_ofList, List.isPrefixOf,
      beq_false_of_ne (Ne.symm hm), Bool.false_and]
  refine ⟨⟨by simp, ?_⟩, hmark '#' hcomment, hmark '.' hlabel⟩
  rw [String.toList_ofList, List.forall_mem_cons]
  exact ⟨hblank, h⟩

theorem plain_decimal (v : Int) : Plain {} (Text.decimal v) := by
  have hdigits := Literal.exists_digitChar (show 1 < 10 by decide) v.natAbs
  have hblank : ∀ c ∈ Nat.toDigits 10 v.natAbs, Text.isBlank c = false := by
    intro c hc
    obtain ⟨m, hm, rfl⟩ := hdigits c hc
    exact isBlank_digitChar m (by omega)
  rw [Text.decimal]
  split
  · exact plain_ofList (by decide) (by decide) (by decide) hblank
  · cases hcs : Nat.toDigits 10 v.natAbs with
    | nil => exact absurd hcs Nat.toDigits_ne_nil
    | cons c cs =>
      rw [hcs, List.forall_mem_cons] at hblank
      obtain ⟨m, -, rfl⟩ := hdigits c (hcs ▸ List.mem_cons_self)
      exact plain_ofList hblank.1 (Nat.digitChar_ne _ (by decide))
        (Nat.digitChar_ne _ (by decide)) hblank.2

theorem plain_hexadecimal (width n : Nat) : Plain {} (Text.hexadecimal width n) := by
  refine plain_ofList (by decide) (by decide) (by decide) ?_
  rw [List.forall_mem_cons]
  refine ⟨by decide, fun c hc => ?_⟩
  obtain ⟨m, hm, rfl⟩ := Literal.exists_digitChar_zeroFilled (by decide) width n c hc
  exact isBlank_digitChar m hm

end Source

theorem Line.Written.plain_tokens {g : Line} (h : g.Written) :
    g.tokens ≠ [] ∧ ∀ t ∈ g.tokens, Source.Plain {} t := by
  cases h with
  | low r a source =>
    have hmovil := Source.plain_mnemonic _ Instruction.moves_mem_catalog.2.1
    simpa using ⟨hmovil, Source.plain_register r, Source.plain_hexadecimal _ _⟩
  | high r a source =>
    have hmoviu := Source.plain_mnemonic _ Instruction.moves_mem_catalog.2.2
    simpa using ⟨hmoviu, Source.plain_register r, Source.plain_hexadecimal _ _⟩
  | through hi _ r source => simpa using ⟨Source.plain_mnemonic _ hi, Source.plain_register r⟩
  | short hi => simpa using ⟨Source.plain_mnemonic _ hi, Source.plain_decimal _⟩

/-! ## Programs that have been resolved -/

/-- Nothing that a resolution leaves or writes refers to a label. -/
theorem Program.labelTokens_of_resolve {p : Program} {r : Resolution} (hp : p.Valid)
    (h : p.resolve {} = .ok r) {l : Line} (hl : l ∈ r.program.lines) : l.labelTokens {} = [] := by
  obtain ⟨labels, bs, -, hres⟩ := resolved hp h
  rcases hres.written hp hl with hwritten | ⟨-, hnone⟩
  · exact Source.filter_isLabel_of_plain hwritten.plain_tokens.2
  · exact hnone

/-- No label is left in a program that has been resolved, so a second resolution finds nothing to do
and leaves the program as it is. -/
theorem Program.resolve_idempotent {p : Program} {r : Resolution} (hp : p.Valid)
    (h : p.resolve {} = .ok r) :
    (∀ l ∈ r.program.lines, ∀ t ∈ l.tokens, Text.startsWith t "." = false) ∧
    r.program.resolve {} = .ok ⟨r.program, [], [], 0, 0⟩ := by
  have hnone : ∀ l ∈ r.program.lines, l.labelTokens {} = [] := fun l hl =>
    labelTokens_of_resolve hp h hl
  obtain ⟨labels, bs, -, hres⟩ := resolved hp h
  refine ⟨fun l hl t ht => ?_, resolve_plain hres.layout.valid fun l hl => ⟨?_, hnone l hl⟩⟩
  · have hlabel := List.filter_eq_nil_iff.1 (hnone l hl) t ht
    exact Bool.eq_false_of_not_eq_true hlabel
  · by_cases hne : l.tokens = []
    · -- an empty line starts with the empty text, which is no label
      rw [Label.declares, Line.first, hne]
      rfl
    · exact Line.declares_of_labelTokens hne (hnone l hl)

/-- An empty line, and a label that a jump and a move refer to. -/
theorem Program.resolve_idempotent_twice : ∃ r,
    (ofLines [⟨[], 1⟩, ⟨[".a"], 2⟩, ⟨["JUC", ".a$r1"], 3⟩, ⟨["MOV", "r2", ".a"], 4⟩]).resolve {} =
      .ok r ∧
    r.symbols = [⟨".a", 1⟩] ∧ r.expanded = 2 ∧ r.relaxed = 1 ∧
    (∀ l ∈ r.program.lines, ∀ t ∈ l.tokens, Text.startsWith t "." = false) ∧
    r.program.resolve {} = .ok ⟨r.program, [], [], 0, 0⟩ := by
  have hr : ((ofLines [⟨[], 1⟩, ⟨[".a"], 2⟩, ⟨["JUC", ".a$r1"], 3⟩,
      ⟨["MOV", "r2", ".a"], 4⟩]).resolve {}).toOption.map
        (fun r => (r.symbols, r.expanded, r.relaxed)) = some ([⟨".a", 1⟩], 2, 1) := by
    decide +kernel
  obtain ⟨r, h⟩ := exists_ok_of_isOk (x := (ofLines [⟨[], 1⟩, ⟨[".a"], 2⟩, ⟨["JUC", ".a$r1"], 3⟩,
    ⟨["MOV", "r2", ".a"], 4⟩]).resolve {}) (by decide +kernel)
  rw [h] at hr
  obtain ⟨hsymbols, hcounts⟩ := Prod.mk.inj (Option.some.inj hr)
  obtain ⟨hexpanded, hrelaxed⟩ := Prod.mk.inj hcounts
  exact ⟨r, h, hsymbols, hexpanded, hrelaxed, resolve_idempotent (valid_ofLines _) h⟩

/-! ## Tokens that defines put in -/

/-- A define puts tokens of the source in place of other ones. -/
theorem Defines.legible_of_mem_rest {d : Dialect} {raw : List String}
    (hwell : WellFormed d (Source.lines d raw)) {l : Line}
    (hl : l ∈ rest d (Source.lines d raw)) : Source.Legible d l.tokens := by
  have htoken : ∀ l' ∈ Source.lines d raw, ∀ t ∈ l'.tokens,
      Text.IsWord (((table d (Source.lines d raw)).lookup t).getD t) ∧
        d.isComment (((table d (Source.lines d raw)).lookup t).getD t) = false := by
    intro l' hl' t ht
    cases hlookup : (table d (Source.lines d raw)).lookup t with
    | none =>
      have hlegible := Source.legible_of_mem_lines hl'
      exact ⟨hlegible.isWord t ht, hlegible.no_comment t ht⟩
    | some replacement =>
      obtain ⟨before, after, htable, -⟩ := List.lookup_eq_some_iff.1 hlookup
      have hmem : (t, replacement) ∈ table d (Source.lines d raw) := by simp [htable]
      obtain ⟨define, hdefine, hpair⟩ := List.mem_map.1 hmem
      obtain ⟨hin, hkeyword⟩ := List.mem_filter.1 hdefine
      obtain ⟨a, b, c, htokens⟩ := List.length_eq_three.1 (hwell.1 define hin hkeyword)
      have hlegible := Source.legible_of_mem_lines hin
      rw [htokens] at hpair hlegible
      cases hpair
      exact ⟨hlegible.isWord _ (by simp), hlegible.no_comment _ (by simp)⟩
  obtain ⟨l', hl', rfl⟩ := List.mem_map.1 hl
  have hin := List.mem_of_mem_filter hl'
  refine ⟨?_, fun t ht => ?_, fun t ht => ?_⟩
  · rw [Ne, List.map_eq_nil_iff]
    exact (Source.legible_of_mem_lines hin).nonempty
  · obtain ⟨u, hu, rfl⟩ := List.mem_map.1 ht
    exact (htoken l' hin u hu).1
  · obtain ⟨u, hu, rfl⟩ := List.mem_map.1 ht
    exact (htoken l' hin u hu).2

/-! ## Dumps -/

/-- The lines of an assembled program can stand in source text, and refer to no label. -/
theorem legible_of_assemble {text : String} {A : Assembly} (h : assemble {} text = .ok A) {g : Line}
    (hg : g ∈ A.program.lines) : Source.Legible {} g.tokens ∧ g.labelTokens {} = [] := by
  obtain ⟨p, r, words, hp, hr, -, rfl⟩ := assembleLines_eq_ok.1 h
  obtain ⟨hvalid, hwell, hlines⟩ := preprocess_eq_ok hp
  obtain ⟨labels, bs, -, hres⟩ := Program.resolved hvalid hr
  rcases hres.written hvalid hg with hwritten | ⟨hl, hnone⟩
  · obtain ⟨hne, hplain⟩ := hwritten.plain_tokens
    exact ⟨Source.legible_of_plain hne hplain, Source.filter_isLabel_of_plain hplain⟩
  · rw [hlines] at hl
    exact ⟨Defines.legible_of_mem_rest hwell (List.mem_of_mem_filter hl), hnone⟩

theorem Program.dump_congr {p q : Program} (h : p.lines.map Line.tokens = q.lines.map Line.tokens) :
    p.dump = q.dump := by
  have hrow : ∀ p : Program,
      p.lines.map Line.row = (p.lines.map Line.tokens).map fun t => Line.row ⟨t, 0⟩ := by
    intro p
    rw [List.map_map]
    rfl
  rw [dump, dump, hrow p, hrow q, h]

/-- The dump of an assembled program is source text of the same words, and is its own dump. -/
theorem assemble_dump {text : String} {A : Assembly} (h : assemble {} text = .ok A) :
    ∃ B, assemble {} A.program.dump = .ok B ∧ B.words = A.words ∧ B.symbols = [] ∧
      B.warnings = [] ∧ B.program.dump = A.program.dump := by
  have hwords : A.program.lines.mapM Line.encode = .ok A.words := by
    obtain ⟨p, r, words, -, -, hwords, rfl⟩ := assembleLines_eq_ok.1 h
    exact hwords
  have hencodes := exists_mapM_eq_ok.1 ⟨_, hwords⟩
  have hlines := Source.lines_dump (d := {}) (p := A.program) fun l hl =>
    ⟨(legible_of_assemble h hl).1, Line.length_tokens_of_encode (hencodes l hl).choose_spec⟩
  have hplain : ∀ t ∈ A.program.lines.map Line.tokens,
      t ≠ [] ∧ t.filter (Dialect.isLabel {}) = [] := by
    intro t ht
    obtain ⟨l, hl, rfl⟩ := List.mem_map.1 ht
    obtain ⟨hlegible, hnone⟩ := legible_of_assemble h hl
    exact ⟨hlegible.nonempty, hnone⟩
  obtain ⟨B, hB, hsame, hprogram, hsymbols, hwarnings⟩ :=
    assemble_numbered hlines hplain (Line.mapM_encode.1 hwords)
  refine ⟨B, hB, hsame, hsymbols, hwarnings, Program.dump_congr ?_⟩
  rw [hprogram, Line.map_tokens_numbered]

/-- A define, a comment, a jump over a number in octal and a move of the address behind it. -/
theorem assemble_dump_octal : ∃ A B,
    assemble {} "`define ADDR r1\nMOV ADDR .end # load\nJUC .end$r2\n 0_17\n.end\nNOP" = .ok A ∧
      assemble {} A.program.dump = .ok B ∧ B.words = A.words ∧ B.symbols = [] ∧
        B.warnings = [] ∧ B.program.dump = A.program.dump := by
  obtain ⟨A, hA⟩ := exists_ok_of_isOk (x := assemble {}
    "`define ADDR r1\nMOV ADDR .end # load\nJUC .end$r2\n 0_17\n.end\nNOP") (by decide +kernel)
  obtain ⟨B, hB, hresult⟩ := assemble_dump hA
  exact ⟨A, B, hA, hB, hresult⟩

end CompactRisc
