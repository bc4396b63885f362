import CompactRisc.Proofs.Landing

/-!
# The sources that are accepted

A source is assembled exactly if each of its lines is in order by itself, given the names of the
labels and the tokens that are defined. Which lines are generated on the way, and where they end
up, does not matter: none of them is ever refused.

Results:
* `Program.exists_resolve`, `Program.exists_resolve_iff`: a program is resolved if its labels can be
  read and every line of the body is taken.
* `Resolved.encodes`: the encoder refuses no line that the resolution has written.
* `assembleLines_accepts`: the language of the assembler.
-/
namespace CompactRisc

/-- A line of the body that is in order, if these labels are declared. -/
inductive Line.Accepted (d : Dialect) (names : List String) (l : Line) : Prop
  /-- The line mentions no label, and the encoder takes it. -/
  | plain (none : l.labelTokens d = []) (encodes : ∃ w, l.encode = .ok w)
  /-- The line moves the address of a label into a register. -/
  | move {r : Register} {name token : String} {loading : Option Register}
      (shape : l.tokens = ["MOV", r.name, token]) (one : l.labelTokens d = [token])
      (declared : name ∈ names)
      (parts : token.toList.splitOn d.loadSeparator =
        name.toList :: (loading.map fun r => r.name.toList).toList)
  /-- The line is a jump or call to a label, by way of a register. -/
  | transfer {i : Instruction} {name token : String} {loading : Register}
      (mem : i ∈ Instruction.catalog) (transfer : i.isTransfer = true)
      (shape : l.tokens = [i.mnemonic, token]) (one : l.labelTokens d = [token])
      (declared : name ∈ names)
      (parts : token.toList.splitOn d.loadSeparator = [name.toList, loading.name.toList])

/-- The labels and the body of a list of lines are in order. -/
structure Line.AllAccepted (d : Dialect) (lines : List Line) : Prop where
  /-- A label stands alone on its line and has a name. -/
  label_alone : ∀ l ∈ lines, d.isLabel l.first = true → l.tokens.length = 1 ∧ l.first ≠ d.labelMark
  /-- No label is declared twice. -/
  label_once : ((lines.filter (d.isLabel ·.first)).map Line.first).Nodup
  /-- The last line is no label. -/
  label_followed : ∀ l ∈ lines.getLast?, d.isLabel l.first = false
  /-- All other lines are in order. -/
  body : ∀ l ∈ lines, d.isLabel l.first = false →
    l.Accepted d ((lines.filter (d.isLabel ·.first)).map Line.first)

/-- The lines of a source are in order. -/
structure Source.Accepted (d : Dialect) (lines : List Line) : Prop where
  /-- A define has a token and a replacement. -/
  define_arity : ∀ l ∈ lines, d.isDefine l.first = true → l.tokens.length = 3
  /-- No token is defined twice. -/
  define_once : ((lines.filter (d.isDefine ·.first)).map (·.tokens.getD 1 "")).Nodup
  /-- The other lines are in order when every token has been replaced. -/
  rest : Line.AllAccepted d (Defines.rest d lines)

/-- A line refers to one of the labels in one of the ways that a line can. The label of a move may
also stand in the place of its destination, in a dialect in which a register has the form of a
label. -/
inductive Line.Refers (d : Dialect) (names : List String) (l : Line) : Prop
  | move {r : Register} {name token source : String} {loading : Option Register}
      (one : l.labelTokens d = [token]) (declared : name ∈ names)
      (parts : token.toList.splitOn d.loadSeparator =
        name.toList :: (loading.map fun r => r.name.toList).toList)
      (shape : l.tokens = ["MOV", r.name, source])
      (operand : token = source ∨ ∃ r' : Register, source = r'.name)
  | transfer {i : Instruction} {name token : String} {loading : Register}
      (one : l.labelTokens d = [token]) (declared : name ∈ names)
      (parts : token.toList.splitOn d.loadSeparator = [name.toList, loading.name.toList])
      (mem : i ∈ Instruction.catalog) (transfer : i.isTransfer = true)
      (shape : l.tokens = [i.mnemonic, token])

/-! ## Lines that are taken -/

theorem exists_find?_name {labels : Array Label} {name : String} :
    (∃ label : Label, label.name = name ∧ labels.find? (·.name == label.name) = some label) ↔
      name ∈ labels.toList.map Label.name := by
  rw [List.mem_map]
  refine ⟨fun h => ?_, fun h => ?_⟩
  · obtain ⟨label, hname, hfind⟩ := h
    exact ⟨label, Array.mem_toList_iff.2 (Array.mem_of_find?_eq_some hfind), hname⟩
  · obtain ⟨label, hmem, rfl⟩ := h
    cases hfind : labels.find? (·.name == label.name) with
    | none =>
      rw [← Array.find?_toList] at hfind
      have := List.find?_eq_none.1 hfind label hmem
      simp at this
    | some label' =>
      have hname : label'.name = label.name := by simpa using Array.find?_some hfind
      exact ⟨label', hname, by rw [hname]; exact hfind⟩

/-- A line of the body that has a reference is taken exactly if it can have it. -/
theorem Line.exists_use_iff {d : Dialect} {labels : Array Label} {l : Line}
    (hfirst : d.isLabel l.first = false) :
    (∃ u, l.use d labels = .ok (some u)) ↔ l.Refers d (labels.toList.map Label.name) := by
  refine ⟨fun h => ?_, fun h => ?_⟩
  · obtain ⟨u, hu⟩ := h
    cases uses_of_use hfirst hu with
    | @move label r token source loading hone hn hshape hoperand =>
      exact .move hone (exists_find?_name.1 ⟨label, rfl, hn.2⟩) hn.1 hshape hoperand
    | @transfer label r i short token hone hn hi hform hshape =>
      exact .transfer hone (exists_find?_name.1 ⟨label, rfl, hn.2⟩) hn.1 hi
        (Instruction.isTransfer_of_shortForm? hform) hshape
  · cases h with
    | move hone hdeclared hparts hshape hoperand =>
      obtain ⟨label, rfl, hfind⟩ := exists_find?_name.2 hdeclared
      exact ⟨_, use_of_uses hfirst (.move hone ⟨hparts, hfind⟩ hshape hoperand)⟩
    | @transfer i _ token r hone hdeclared hparts hi htransfer hshape =>
      obtain ⟨label, rfl, hfind⟩ := exists_find?_name.2 hdeclared
      rw [Instruction.isTransfer_eq i hi] at htransfer
      obtain ⟨short, hform⟩ := Option.isSome_iff_exists.1 htransfer
      exact ⟨_, use_of_uses hfirst (.transfer hone (r := r) ⟨hparts, hfind⟩ hi hform hshape)⟩

theorem Line.exists_use {d : Dialect} {labels : Array Label} {l : Line}
    (hfirst : d.isLabel l.first = false) : (∃ u?, l.use d labels = .ok u?) ↔
      l.labelTokens d = [] ∨ l.Refers d (labels.toList.map Label.name) := by
  rw [← exists_use_iff hfirst, ← @use_eq_none d labels l]
  refine ⟨fun h => ?_, fun h => ?_⟩
  · obtain ⟨u?, hu⟩ := h
    cases u? with
    | none => exact Or.inl hu
    | some u => exact Or.inr ⟨u, hu⟩
  · rcases h with hu | ⟨u, hu⟩
    · exact ⟨none, hu⟩
    · exact ⟨some u, hu⟩

theorem map_name_labels {d : Dialect} {lines : List Line} {labels : Array Label} {ids : List LineId}
    (h : labels.toList = (declarations d 0 lines).map (Declaration.label ids)) :
    labels.toList.map Label.name = declaredNames d lines := by
  rw [h, List.map_map, ← map_name_declarations d lines 0]
  rfl

theorem find?_labels {d : Dialect} {lines : List Line} {labels : Array Label} {ids : List LineId}
    (h : labels.toList = (declarations d 0 lines).map (Declaration.label ids)) {name : String} :
    (∃ label : Label, label.name = name ∧ labels.find? (·.name == label.name) = some label) ↔
      name ∈ declaredNames d lines := by
  rw [exists_find?_name, map_name_labels h]

/-- A line of the body is in order exactly if its mention is taken and, in case it has none, the
encoder takes the line. -/
theorem Line.accepted_iff {d : Dialect} (hregister : ∀ r : Register, d.isLabel r.name = false)
    {lines : List Line} {labels : Array Label} {ids : List LineId}
    (hlabels : labels.toList = (declarations d 0 lines).map (Declaration.label ids)) {l : Line}
    (hfirst : d.isLabel l.first = false) :
    l.Accepted d (declaredNames d lines) ↔ (∃ u?, l.use d labels = .ok u?) ∧
      (l.labelTokens d = [] → ∃ w, l.encode = .ok w) := by
  refine ⟨fun h => ?_, fun h => ?_⟩
  · cases h with
    | plain hnone hencodes => exact ⟨⟨none, use_eq_none.2 hnone⟩, fun _ => hencodes⟩
    | move hshape hone hdeclared hparts =>
      obtain ⟨label, rfl, hfind⟩ := (find?_labels hlabels).2 hdeclared
      refine ⟨⟨_, use_of_uses hfirst (.move hone ⟨hparts, hfind⟩ hshape (Or.inl rfl))⟩, ?_⟩
      simp [hone]
    | @transfer i _ token r hi htransfer hshape hone hdeclared hparts =>
      obtain ⟨label, rfl, hfind⟩ := (find?_labels hlabels).2 hdeclared
      rw [Instruction.isTransfer_eq i hi] at htransfer
      obtain ⟨short, hform⟩ := Option.isSome_iff_exists.1 htransfer
      refine ⟨⟨_, use_of_uses hfirst (.transfer hone (r := r) ⟨hparts, hfind⟩ hi hform hshape)⟩, ?_⟩
      simp [hone]
  · obtain ⟨⟨u?, hu⟩, hencodes⟩ := h
    cases u? with
    | none =>
      have hnone := use_eq_none.1 hu
      exact .plain hnone (hencodes hnone)
    | some u =>
      cases uses_of_use hfirst hu with
      | @move label r token source loading hone hn hshape _ =>
        -- neither the mnemonic nor the register is a label, so the second operand is
        have hsource : source = token := by
          have hmov : d.isLabel "MOV" = false := by rwa [Line.first, hshape] at hfirst
          rw [labelTokens, hshape] at hone
          cases hs : d.isLabel source <;> simp_all
        rw [hsource] at hshape
        exact .move hshape hone ((find?_labels hlabels).1 ⟨label, rfl, hn.2⟩) hn.1
      | @transfer label r i short token hone hn hi hform hshape =>
        have htransfer := Instruction.isTransfer_of_shortForm? hform
        exact .transfer hi htransfer hshape hone ((find?_labels hlabels).1 ⟨label, rfl, hn.2⟩) hn.1

/-! ## Programs that are resolved and encoded -/

theorem Program.exists_resolve {d : Dialect} {p : Program} (hp : p.Valid) {labels : Array Label}
    (hlabels : Label.ofProgram d p = .ok labels) :
    (∃ r, p.resolve d = .ok r) ↔ ∀ l ∈ body d p.lines, ∃ u?, l.use d labels = .ok u? := by
  have hrun := resolve_of_labels hp hlabels
  rw [← exists_mapM_eq_ok]
  cases hm : (body d p.lines).mapM (Line.use d labels) with
  | error f =>
    rw [hm] at hrun
    simp [hrun]
  | ok uses =>
    rw [hm] at hrun
    obtain ⟨r, bs, hr, -⟩ := hrun
    exact ⟨fun _ => ⟨uses, rfl⟩, fun _ => ⟨r, hr⟩⟩

/-- What it takes for a program to be resolved, in terms of its lines alone. -/
theorem Program.exists_resolve_iff {d : Dialect} {p : Program} (hp : p.Valid) :
    (∃ r, p.resolve d = .ok r) ↔
      (∀ l ∈ p.lines, Label.declares d l = true → Label.WellFormed d l) ∧
      (declaredNames d p.lines).Nodup ∧ (∀ l ∈ p.lines.getLast?, Label.declares d l = false) ∧
      ∀ l ∈ body d p.lines, l.labelTokens d = [] ∨ l.Refers d (declaredNames d p.lines) := by
  have huse : ∀ {labels}, Label.ofProgram d p = .ok labels → ((∃ r, p.resolve d = .ok r) ↔
      ∀ l ∈ body d p.lines, l.labelTokens d = [] ∨ l.Refers d (declaredNames d p.lines)) := by
    intro labels hlabels
    rw [exists_resolve hp hlabels, ← map_name_labels (Label.ofProgram_eq_ok hlabels)]
    exact forall₂_congr fun l hl => Line.exists_use (body_not_label hl)
  refine ⟨fun h => ?_, fun h => ?_⟩
  · obtain ⟨r, hr⟩ := h
    obtain ⟨labels, -, hlabels, -⟩ := resolved hp hr
    obtain ⟨hwell, hnodup, hlast⟩ := Label.exists_ofProgram_eq_ok.1 ⟨labels, hlabels⟩
    exact ⟨hwell, hnodup, hlast, (huse hlabels).1 ⟨r, hr⟩⟩
  · obtain ⟨hwell, hnodup, hlast, hbody⟩ := h
    obtain ⟨labels, hlabels⟩ := Label.exists_ofProgram_eq_ok.2 ⟨hwell, hnodup, hlast⟩
    exact (huse hlabels).2 hbody

/-- The lines that a resolution writes are never refused. -/
theorem Line.Written.encodes {g : Line} (h : g.Written) : ∃ w, g.encode = .ok w := by
  have hmeans : ∀ {g : Line} {i : Instruction} {operands : List Operand}, g.Means i operands →
      ∃ w, g.encode = .ok w := fun ⟨w, hw, _⟩ => ⟨w, hw⟩
  cases h with
  | low r a source => exact hmeans (means_low r a source)
  | high r a source => exact hmeans (means_high r a source)
  | through hi htransfer r source => exact hmeans (means_through hi htransfer r source)
  | short hi hrange hleast hgreatest source =>
    exact hmeans (means_short hi hrange hleast hgreatest source)

namespace Resolved

variable {d : Dialect} {p : Program} {r : Resolution} {labels : Array Label}
  {bs : List Layout.Block}

/-- A line of a resolved program that the encoder refuses is a line of the source. -/
theorem encodes (hp : p.Valid) (h : Resolved d p r labels bs) {g : Line}
    (hg : g ∈ r.program.lines) :
    (∃ w, g.encode = .ok w) ∨ (g ∈ body d p.lines ∧ g.labelTokens d = []) := by
  rcases h.written hp hg with hwritten | hline
  · exact Or.inl hwritten.encodes
  · exact Or.inr hline

theorem exists_encode (hp : p.Valid) (h : Resolved d p r labels bs) :
    (∃ words, r.program.encode = .ok words) ↔
      ∀ l ∈ body d p.lines, l.labelTokens d = [] → ∃ w, l.encode = .ok w := by
  unfold Program.encode
  rw [exists_mapM_eq_ok]
  refine ⟨fun hall l hl hnone => ?_, fun hall g hg => ?_⟩
  · -- a line without a mention is a line of the result
    obtain ⟨k, hk⟩ := List.getElem?_of_mem hl
    obtain ⟨block, hblock, hbecomes⟩ := h.becomes_at hp hk
    have hself : l ∈ block := by
      rw [hbecomes.eq_singleton hnone]
      exact List.mem_singleton.2 rfl
    apply hall
    rw [h.flatten_linesOf]
    exact List.mem_flatten.2 ⟨block, List.mem_of_getElem? hblock, hself⟩
  · rcases h.encodes hp hg with hw | ⟨hl, hnone⟩
    · exact hw
    · exact hall g hl hnone

end Resolved

/-- A program is resolved and encoded exactly if its lines are in order. -/
theorem Program.allAccepted_iff {d : Dialect} (hregister : ∀ r : Register, d.isLabel r.name = false)
    {p : Program} (hp : p.Valid) :
    (∃ r words, p.resolve d = .ok r ∧ r.program.encode = .ok words) ↔
      Line.AllAccepted d p.lines := by
  have hmem : ∀ l ∈ p.lines, d.isLabel l.first = false → l ∈ body d p.lines :=
    fun l hl hfirst => List.mem_filter.2 ⟨hl, by simp [Label.declares, hfirst]⟩
  refine ⟨fun h => ?_, fun h => ?_⟩
  · obtain ⟨r, words, hr, hwords⟩ := h
    obtain ⟨labels, bs, hlabels, hres⟩ := resolved hp hr
    obtain ⟨halone, honce, hfollowed⟩ := Label.exists_ofProgram_eq_ok.1 ⟨labels, hlabels⟩
    have huse := (exists_resolve hp hlabels).1 ⟨r, hr⟩
    have hencode := (hres.exists_encode hp).1 ⟨words, hwords⟩
    refine ⟨halone, honce, hfollowed, fun l hl hfirst => ?_⟩
    have hbody := hmem l hl hfirst
    exact (Line.accepted_iff hregister hres.labels_eq hfirst).2 ⟨huse l hbody, hencode l hbody⟩
  · obtain ⟨labels, hlabels⟩ := Label.exists_ofProgram_eq_ok.2
      ⟨h.label_alone, h.label_once, h.label_followed⟩
    have hline : ∀ l ∈ body d p.lines, (∃ u?, l.use d labels = .ok u?) ∧
        (l.labelTokens d = [] → ∃ w, l.encode = .ok w) := by
      intro l hl
      have hfirst := body_not_label hl
      exact (Line.accepted_iff hregister (Label.ofProgram_eq_ok hlabels) hfirst).1
        (h.body l (List.mem_of_mem_filter hl) hfirst)
    obtain ⟨r, hr⟩ := (exists_resolve hp hlabels).2 fun l hl => (hline l hl).1
    obtain ⟨labels', bs, -, hres⟩ := resolved hp hr
    obtain ⟨words, hwords⟩ := (hres.exists_encode hp).2 fun l hl => (hline l hl).2
    exact ⟨r, words, hr, hwords⟩

/-! ## The language -/

theorem Defines.wellFormed_iff {d : Dialect} {lines : List Line} : WellFormed d lines ↔
    (∀ l ∈ lines, d.isDefine l.first = true → l.tokens.length = 3) ∧
      ((lines.filter (d.isDefine ·.first)).map (·.tokens.getD 1 "")).Nodup := by
  rw [WellFormed, table, List.map_map]
  rfl

theorem exists_assembleLines {d : Dialect} {raw : List String} :
    (∃ A, assembleLines d raw = .ok A) ↔ ∃ p r words, preprocess d raw = .ok p ∧
      p.resolve d = .ok r ∧ r.program.encode = .ok words := by
  simp only [assembleLines_eq_ok]
  refine ⟨fun h => ?_, fun h => ?_⟩
  · obtain ⟨A, p, r, words, hp, hr, hwords, -⟩ := h
    exact ⟨p, r, words, hp, hr, hwords⟩
  · obtain ⟨p, r, words, hp, hr, hwords⟩ := h
    exact ⟨_, p, r, words, hp, hr, hwords, rfl⟩

/-- In a dialect in which no register looks like a label, a source is assembled exactly if its
lines are in order. -/
theorem Source.accepted_iff {d : Dialect} (hregister : ∀ r : Register, d.isLabel r.name = false)
    (raw : List String) :
    (∃ A, assembleLines d raw = .ok A) ↔ Source.Accepted d (Source.lines d raw) := by
  rw [exists_assembleLines]
  refine ⟨fun h => ?_, fun h => ?_⟩
  · obtain ⟨p, r, words, hp, hr, hwords⟩ := h
    obtain ⟨hvalid, hdefines, hlines⟩ := preprocess_eq_ok hp
    obtain ⟨harity, honce⟩ := Defines.wellFormed_iff.1 hdefines
    have hrest := (Program.allAccepted_iff hregister hvalid).1 ⟨r, words, hr, hwords⟩
    exact ⟨harity, honce, hlines ▸ hrest⟩
  · obtain ⟨p, hp⟩ := exists_preprocess_eq_ok.2
      (Defines.wellFormed_iff.2 ⟨h.define_arity, h.define_once⟩)
    obtain ⟨hvalid, -, hlines⟩ := preprocess_eq_ok hp
    obtain ⟨r, words, hr, hwords⟩ :=
      (Program.allAccepted_iff hregister hvalid).2 (by rw [hlines]; exact h.rest)
    exact ⟨p, r, words, hp, hr, hwords⟩

/-- A source is assembled exactly if its lines are in order. No line that is generated on the way is
refused by the encoder. -/
theorem assembleLines_accepts (raw : List String) :
    ((∃ A, assembleLines {} raw = .ok A) ↔ Source.Accepted {} (Source.lines {} raw)) ∧
    ∀ p r, preprocess {} raw = .ok p → p.resolve {} = .ok r → ∀ g ∈ r.program.lines,
      (∃ w, g.encode = .ok w) ∨ (g ∈ body {} p.lines ∧ g.labelTokens {} = []) := by
  refine ⟨Source.accepted_iff (by decide +kernel) raw, fun p r hp hr g hg => ?_⟩
  have hvalid := (preprocess_eq_ok hp).1
  obtain ⟨labels, bs, -, hres⟩ := Program.resolved hvalid hr
  exact hres.encodes hvalid hg

/-- A label that a define names, with a call and a move that refer to it. -/
theorem assembleLines_accepts_call : ∃ p r,
    preprocess {} ["`define HERE .sub", "HERE", "MOV r1 HERE", "CALL .sub$r2"] = .ok p ∧
      p.resolve {} = .ok r ∧
      Source.Accepted {}
        (Source.lines {} ["`define HERE .sub", "HERE", "MOV r1 HERE", "CALL .sub$r2"]) ∧
      ∀ g ∈ r.program.lines,
        (∃ w, g.encode = .ok w) ∨ (g ∈ body {} p.lines ∧ g.labelTokens {} = []) := by
  obtain ⟨A, hA⟩ := exists_ok_of_isOk (x := assembleLines {}
    ["`define HERE .sub", "HERE", "MOV r1 HERE", "CALL .sub$r2"]) (by decide +kernel)
  obtain ⟨p, r, -, hp, hr, -⟩ := assembleLines_eq_ok.1 hA
  obtain ⟨haccepts, hencodes⟩ :=
    assembleLines_accepts ["`define HERE .sub", "HERE", "MOV r1 HERE", "CALL .sub$r2"]
  exact ⟨p, r, hp, hr, haccepts.1 ⟨A, hA⟩, hencodes p r hp hr⟩

end CompactRisc
