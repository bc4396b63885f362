import CompactRisc.Proofs.Outline

/-!
# What resolution does

The resolution of a program puts together what its phases do. It succeeds as soon as the labels
can be read and every line of the body is taken, and its result is then given by the outline of
the lines.

Results:
* `Program.resolve_of_labels`: once the labels are read, a resolution fails only with the first
  fault in a line of the body.
* `Program.resolved`, `Program.resolved_from`: what is true of a program that has been resolved.
* `Resolved.position`, `Resolved.symbols_eq`, `Resolved.size_eq`, `Resolved.expanded_eq`,
  `Resolved.relaxed_eq`, `Resolved.warnings_eq`: the result in terms of the outline.
-/
namespace CompactRisc

open Layout

/-- A resolved program: `bs` are the blocks that the lines of the body became in the expansion. -/
structure Resolved (d : Dialect) (p : Program) (r : Resolution) (labels : Array Label)
    (bs : List Block) : Prop where
  labels_eq :
    labels.toList = (declarations d 0 p.lines).map (Declaration.label (Label.strip d p).ids)
  target_lt : ∀ δ ∈ declarations d 0 p.lines, δ.target < (body d p.lines).length
  blocks : List.Forall₂ (Expands d labels) (Label.strip d p).entries bs
  items_eq : Layout.items bs = Outline.items d p.lines
  layout : Represents ⟨r.program, labels, ((finalBlocks bs).filterMap Block.reference?).toArray⟩
    (finalBlocks bs)
  finish_eq : Layout.finish
    ⟨r.program, labels, ((finalBlocks bs).filterMap Block.reference?).toArray⟩ = .ok r

/-! ## From lines to blocks -/

theorem body_not_label {d : Dialect} {lines : List Line} {l : Line} (h : l ∈ body d lines) :
    d.isLabel l.first = false := by
  have := (List.mem_filter.1 h).2
  simpa [Label.declares] using this

section Expansion

variable {d : Dialect} {labels : Array Label} {entries : List (LineId × Line)} {bs : List Block}

theorem map_id_of_expands (h : List.Forall₂ (Expands d labels) entries bs) :
    bs.map Block.id = entries.map Prod.fst :=
  map_eq_of_forall₂ h fun _ _ hb => by cases hb <;> rfl

theorem fresh_of_expands (h : List.Forall₂ (Expands d labels) entries bs) : Fresh bs := by
  intro b hb
  obtain ⟨k, hk⟩ := List.getElem?_of_mem hb
  obtain ⟨e, -, he⟩ := getElem?_left_of_forall₂ h hk
  cases he <;> rfl

theorem Line.Uses.mem {l : Line} {u : Use} (h : l.Uses d labels u) :
    u.label ∈ labels.toList := by
  have hfind : labels.find? (·.name == u.label.name) = some u.label := by
    cases h with
    | move _ hn _ _ => exact hn.2
    | transfer _ hn _ _ _ => exact hn.2
  exact Array.mem_toList_iff.2 (Array.mem_of_find?_eq_some hfind)

theorem targeted_of_expands (h : List.Forall₂ (Expands d labels) entries bs)
    (hin : ∀ label ∈ labels.toList, label.target ∈ entries.map Prod.fst) : Targeted bs := by
  intro id high transfer source u stage hmem
  rw [map_id_of_expands h]
  obtain ⟨k, hk⟩ := List.getElem?_of_mem hmem
  obtain ⟨e, -, he⟩ := getElem?_left_of_forall₂ h hk
  cases he with
  | site hu => exact hin _ hu.mem

end Expansion

/-! ## The run -/

theorem Layout.Represents.references_eq {s : Layout} {bs : List Block} (h : Represents s bs) :
    s.references = (bs.filterMap Block.reference?).toArray := by
  rw [← h.references, Array.toArray_toList]

theorem Layout.Represents.symbols_eq {s : Layout} {bs : List Block} {σ : Nat → Stage}
    {declared : List Declaration} (h : Represents s (staged bs σ)) (hnd : (bs.map Block.id).Nodup)
    (hlabels : s.labels.toList = declared.map (Declaration.label (bs.map Block.id)))
    (htarget : ∀ δ ∈ declared, δ.target < bs.length) :
    s.symbols = .ok (declared.map fun δ =>
      ⟨δ.name, Sizing.address ((staged bs σ).map Block.size) δ.target⟩) := by
  unfold symbols
  rw [hlabels, List.mapM_map]
  apply mapM_eq_ok_map
  intro δ hδ
  have hlt : δ.target < (bs.map Block.id).length := by
    rw [List.length_map]
    exact htarget δ hδ
  have hget : (Declaration.label (bs.map Block.id) δ).target = (bs.map Block.id)[δ.target] := by
    rw [Declaration.label, List.getD_eq_getElem?_getD, List.getElem?_eq_getElem hlt,
      Option.getD_some]
  have hmem : (Declaration.label (bs.map Block.id) δ).target ∈ bs.map Block.id := by
    rw [hget]
    exact List.getElem_mem hlt
  have haddr := h.address_eq hmem
  rw [hget, hnd.idxOf_getElem] at haddr
  rw [Function.comp_apply, haddr]
  rfl

theorem Layout.expand_plain (d : Dialect) {p : Program} (hp : p.Valid) (labels : Array Label)
    (hfirst : ∀ l ∈ p.lines, d.isLabel l.first = false) :
    match p.lines.mapM (Line.use d labels) with
    | .error f => expand d ⟨p, labels, #[]⟩ = .error f
    | .ok _ => ∃ s bs, expand d ⟨p, labels, #[]⟩ = .ok s ∧ Represents s bs ∧ s.labels = labels ∧
        List.Forall₂ (Expands d labels) p.entries bs := by
  have hstart : Represents ⟨p, labels, #[]⟩ ([] ++ plainBlocks (p.entries ++ [])) := by
    rw [List.append_nil]
    exact represents_plainBlocks hp labels
  have hrun := expand_run d hstart rfl fun e he => hfirst _ (by
    rw [Program.lines_eq_map_entries]
    exact List.mem_map_of_mem he)
  have hend : plainBlocks [] = [] := rfl
  simp only [List.nil_append, hend, List.append_nil] at hrun
  rw [Program.lines_eq_map_entries, List.mapM_map]
  rw [← Program.ids_eq_map_entries] at hrun
  exact hrun

theorem targeted_of_labels {d : Dialect} {p : Program} {labels : Array Label} {bs : List Block}
    (hlabels : Label.ofProgram d p = .ok labels)
    (hbs : List.Forall₂ (Expands d labels) (Label.strip d p).entries bs) : Targeted bs := by
  refine targeted_of_expands hbs ?_
  rw [← Program.ids_eq_map_entries]
  exact Label.target_mem hlabels

/-- After expansion nothing fails, and the result is that of the expanded blocks. -/
theorem exists_resolved {d : Dialect} {p : Program} (hp : p.Valid) {labels : Array Label}
    (hlabels : Label.ofProgram d p = .ok labels) {s : Layout} {bs : List Block}
    (hrep : Represents s bs) (hl : s.labels = labels)
    (hbs : List.Forall₂ (Expands d labels) (Label.strip d p).entries bs) :
    ∃ s' r, s.relax >>= materialize = .ok s' ∧ s'.finish = .ok r ∧ Resolved d p r labels bs := by
  have hids : bs.map Block.id = (Label.strip d p).ids := by
    rw [map_id_of_expands hbs, ← Program.ids_eq_map_entries]
  have hlen : bs.length = (body d p.lines).length := by
    rw [← hbs.length_eq, ← Label.strip_lines, Program.lines_eq_map_entries, List.length_map]
  have hnd : (bs.map Block.id).Nodup := hids ▸ (Program.valid_retain hp _).nodup
  have htarget := Label.target_lt hlabels
  have hdecl := Label.ofProgram_eq_ok hlabels
  rw [← hids] at hdecl
  obtain ⟨s', hfinal, hrep', hl'⟩ := exists_final (fresh_of_expands hbs)
    (targeted_of_labels hlabels hbs) hrep hl
  have hsymbols := hrep'.symbols_eq hnd (hl' ▸ hdecl) (hlen ▸ htarget)
  obtain ⟨r, hfinish, hprogram⟩ : ∃ r, s'.finish = .ok r ∧ r.program = s'.program := by
    rw [Layout.finish, hsymbols]
    exact ⟨_, rfl, rfl⟩
  have hs' : s' = ⟨r.program, labels, ((finalBlocks bs).filterMap Block.reference?).toArray⟩ := by
    rw [hprogram, ← hl', ← hrep'.references_eq]
  have hitems : Layout.items bs = Outline.items d p.lines := by
    have hblocks : Layout.items bs = _ := map_eq_of_forall₂ hbs fun e b hb =>
      Outline.item_of_expands hnd hdecl (by simpa [hlen] using htarget) hb
    rw [hblocks, Outline.items, ← Label.strip_lines,
      Program.lines_eq_map_entries (Label.strip d p), List.map_map]
    rfl
  exact ⟨s', r, hfinal, hfinish, by rw [hdecl, hids], htarget, hbs, hitems, hs' ▸ hrep',
    hs' ▸ hfinish⟩

/-- Once the labels are read, expansion fails only with the first fault in a line of the body. -/
theorem Program.expand_of_labels {d : Dialect} {p : Program} (hp : p.Valid) (labels : Array Label) :
    match (body d p.lines).mapM (Line.use d labels) with
    | .error f => Layout.expand d ⟨Label.strip d p, labels, #[]⟩ = .error f
    | .ok _ => ∃ s bs, Layout.expand d ⟨Label.strip d p, labels, #[]⟩ = .ok s ∧
        Represents s bs ∧ s.labels = labels ∧
        List.Forall₂ (Expands d labels) (Label.strip d p).entries bs := by
  have hrun := Layout.expand_plain d (valid_retain hp fun l => !Label.declares d l) labels (by
    rw [← Label.strip, Label.strip_lines]
    exact fun l hl => body_not_label hl)
  rwa [← Label.strip, Label.strip_lines] at hrun

/-- Once the labels are read, a resolution fails only with the first fault in a line of the body. -/
theorem Program.resolve_of_labels {d : Dialect} {p : Program} (hp : p.Valid) {labels : Array Label}
    (hlabels : Label.ofProgram d p = .ok labels) :
    match (body d p.lines).mapM (Line.use d labels) with
    | .error f => p.resolve d = .error f
    | .ok _ => ∃ r bs, p.resolve d = .ok r ∧ Resolved d p r labels bs := by
  have hrun := expand_of_labels (d := d) hp labels
  unfold resolve Layout.ofProgram
  rw [hlabels]
  simp only [ok_bind, pure_eq_ok]
  cases hm : (body d p.lines).mapM (Line.use d labels) with
  | error f =>
    rw [hm] at hrun
    simp only [hrun, error_bind]
  | ok uses =>
    rw [hm] at hrun
    obtain ⟨s, bs, hexpand, hrep, hl, hbs⟩ := hrun
    obtain ⟨s', r, hfinal, hfinish, hres⟩ := exists_resolved hp hlabels hrep hl hbs
    refine ⟨r, bs, ?_, hres⟩
    rw [hexpand, ok_bind, ← bind_assoc, hfinal, ok_bind, hfinish]

theorem Program.expanded_from {d : Dialect} {p : Program} (hp : p.Valid) {s : Layout}
    (h : Layout.ofProgram d p >>= Layout.expand d = .ok s) :
    ∃ labels bs, Label.ofProgram d p = .ok labels ∧ Represents s bs ∧ s.labels = labels ∧
      List.Forall₂ (Expands d labels) (Label.strip d p).entries bs := by
  obtain ⟨s₀, hs₀, hexpand⟩ := bind_eq_ok.1 h
  obtain ⟨labels, hlabels, hstart⟩ := bind_eq_ok.1 hs₀
  cases hstart
  have hrun := expand_of_labels (d := d) hp labels
  cases hm : (body d p.lines).mapM (Line.use d labels) with
  | error f =>
    rw [hm] at hrun
    cases hrun.symm.trans hexpand
  | ok uses =>
    rw [hm] at hrun
    obtain ⟨s₁, bs, hs₁, hrep, hl, hbs⟩ := hrun
    cases hs₁.symm.trans hexpand
    exact ⟨labels, bs, hlabels, hrep, hl, hbs⟩

/-- A program that has been resolved, from the expansion on: `s` is the layout with all references
expanded. -/
theorem Program.resolved_from {d : Dialect} {p : Program} (hp : p.Valid) {r : Resolution}
    (h : p.resolve d = .ok r) : ∃ labels s bs, Label.ofProgram d p = .ok labels ∧
      Layout.ofProgram d p >>= Layout.expand d = .ok s ∧ Represents s bs ∧ s.labels = labels ∧
      Resolved d p r labels bs := by
  rw [resolve, ← bind_assoc] at h
  obtain ⟨s, hexpand, h⟩ := bind_eq_ok.1 h
  obtain ⟨labels, bs, hlabels, hrep, hl, hbs⟩ := expanded_from hp hexpand
  obtain ⟨s', r', hfinal, hfinish, hres⟩ := exists_resolved hp hlabels hrep hl hbs
  rw [← bind_assoc, hfinal, ok_bind, hfinish] at h
  cases h
  exact ⟨labels, s, bs, hlabels, hexpand, hrep, hl, hres⟩

theorem Program.resolved {d : Dialect} {p : Program} (hp : p.Valid) {r : Resolution}
    (h : p.resolve d = .ok r) : ∃ labels bs, Label.ofProgram d p = .ok labels ∧
      Resolved d p r labels bs := by
  obtain ⟨labels, s, bs, hlabels, -, -, -, hres⟩ := resolved_from hp h
  exact ⟨labels, bs, hlabels, hres⟩

/-! ## The result -/

namespace Resolved

variable {d : Dialect} {p : Program} {r : Resolution} {labels : Array Label} {bs : List Block}

theorem map_id (h : Resolved d p r labels bs) : bs.map Block.id = (Label.strip d p).ids := by
  rw [map_id_of_expands h.blocks, ← Program.ids_eq_map_entries]

theorem length_eq (h : Resolved d p r labels bs) : bs.length = (body d p.lines).length := by
  rw [← Label.strip_lines, Program.lines_eq_map_entries, List.length_map, h.blocks.length_eq]

theorem sizes_eq (h : Resolved d p r labels bs) :
    (finalBlocks bs).map Block.size = Outline.sizes d p.lines := by
  rw [map_size_finalBlocks, h.items_eq]
  rfl

theorem lines_eq (h : Resolved d p r labels bs) :
    r.program.lines = (finalBlocks bs).flatMap Block.lines := h.layout.lines

theorem size_eq (h : Resolved d p r labels bs) :
    r.program.size = (Outline.sizes d p.lines).sum := by
  rw [← h.sizes_eq]
  exact h.layout.size

/-- The block of a line of the body, as it was expanded and as it is in the end. -/
theorem block_at (h : Resolved d p r labels bs) {k : Nat} {e : LineId × Line}
    (hk : (Label.strip d p).entries[k]? = some e) : ∃ b, bs[k]? = some b ∧ Expands d labels e b ∧
      (finalBlocks bs)[k]? = some (b.withStage (finalStage (Outline.items d p.lines) k)) := by
  obtain ⟨b, hb, he⟩ := getElem?_right_of_forall₂ h.blocks hk
  refine ⟨b, hb, he, ?_⟩
  rw [getElem?_finalBlocks, hb, h.items_eq, Option.map_some]

/-- A line of the body keeps its handle, and stands where the sizes before it put it. -/
theorem position (h : Resolved d p r labels bs) {k : Nat} {e : LineId × Line}
    (hk : (Label.strip d p).entries[k]? = some e) :
    r.program.position e.1 = some (Sizing.address (Outline.sizes d p.lines) k) := by
  obtain ⟨b, -, hexpands, hfinal⟩ := h.block_at hk
  have hpos := h.layout.position hfinal
  have hid : b.id = e.1 := by cases hexpands <;> rfl
  rwa [id_withStage, hid, h.sizes_eq] at hpos

theorem finish_cases (h : Resolved d p r labels bs) :
    Layout.symbols ⟨r.program, labels, ((finalBlocks bs).filterMap Block.reference?).toArray⟩ =
        .ok r.symbols ∧
      r.warnings =
        Layout.warnings ⟨r.program, labels, ((finalBlocks bs).filterMap Block.reference?).toArray⟩ ∧
      r.expanded = ((finalBlocks bs).filterMap Block.reference?).length ∧
      r.relaxed = ((finalBlocks bs).filterMap Block.reference?).countP (·.state = .relaxed) := by
  obtain ⟨symbols, hsymbols, hr⟩ := bind_eq_ok.1 h.finish_eq
  rw [pure_eq_ok, Except.ok.injEq] at hr
  rw [hsymbols, ← hr]
  simp

theorem symbols_eq (hp : p.Valid) (h : Resolved d p r labels bs) :
    r.symbols = (declarations d 0 p.lines).map fun δ =>
      ⟨δ.name, Sizing.address (Outline.sizes d p.lines) δ.target⟩ := by
  have hnd : (bs.map Block.id).Nodup := by
    rw [h.map_id]
    exact (Program.valid_retain hp _).nodup
  have hsymbols := Represents.symbols_eq h.layout hnd (by rw [h.map_id]; exact h.labels_eq)
    (by rw [h.length_eq]; exact h.target_lt)
  rw [h.finish_cases.1, Except.ok.injEq] at hsymbols
  rw [hsymbols, ← h.sizes_eq]
  rfl

/-- A label that is used is among the symbols, with the address of the line that the outline
gives. -/
theorem symbol_mem (hp : p.Valid) (h : Resolved d p r labels bs) {k : Nat}
    {id high transfer : LineId} {source : Nat} {u : Use} {stage : Stage}
    (hk : bs[k]? = some (.site id high transfer source u stage)) (hu : u.label ∈ labels.toList) :
    ⟨u.label.name, Sizing.address (Outline.sizes d p.lines)
      (Sizing.targetOf (Outline.items d p.lines) k)⟩ ∈ r.symbols := by
  rw [h.labels_eq] at hu
  obtain ⟨δ, hδ, hlabel⟩ := List.mem_map.1 hu
  have hlt : δ.target < (Label.strip d p).ids.length := by
    rw [← h.map_id, List.length_map, h.length_eq]
    exact h.target_lt δ hδ
  have htarget : u.label.target = (Label.strip d p).ids[δ.target] := by
    rw [← hlabel]
    simp [Declaration.label, hlt]
  have hnd : (Label.strip d p).ids.Nodup := (Program.valid_retain hp _).nodup
  rw [← h.items_eq, targetOf_items hk, h.map_id, htarget, hnd.idxOf_getElem, ← hlabel,
    h.symbols_eq hp]
  exact List.mem_map_of_mem hδ

theorem map_isSite (h : Resolved d p r labels bs) :
    (finalBlocks bs).map Block.isSite = (body d p.lines).map fun l => (l.mentioned? d).isSome := by
  rw [map_finalBlocks (fun _ b => by cases b <;> rfl), ← Label.strip_lines,
    Program.lines_eq_map_entries, List.map_map]
  refine map_eq_of_forall₂ h.blocks fun e b he => ?_
  cases he with
  | plain hnone =>
    rw [Function.comp_apply, Outline.mentioned?_eq_none.2 hnone]
    rfl
  | site hu =>
    have hsome : ∀ l : Line, l.labelTokens d ≠ [] → (l.mentioned? d).isSome = true := by
      intro l hl
      rw [← Option.ne_none_iff_isSome]
      exact fun hnone => hl (Outline.mentioned?_eq_none.1 hnone)
    cases hu with
    | move hone _ _ _ => exact (hsome _ (by simp [hone])).symm
    | transfer hone _ _ _ _ => exact (hsome _ (by simp [hone])).symm

theorem expanded_eq (h : Resolved d p r labels bs) :
    r.expanded = (body d p.lines).countP fun l => (l.mentioned? d).isSome := by
  have hsite : bs.map Block.isSite = _ :=
    (map_finalBlocks (fun _ b => by cases b <;> rfl) bs).symm.trans h.map_isSite
  have hcount := congrArg (List.countP id) hsite
  rw [List.countP_map, List.countP_map] at hcount
  rw [h.finish_cases.2.2.1, finalBlocks, length_references_staged]
  exact hcount

theorem isRelaxed_eq (b : Block) :
    (b.reference?.map fun x => decide (x.state = .relaxed)).getD false =
      (b.isSite && b.size == 1) := by
  cases b with
  | plain => rfl
  | site id high transfer source u stage =>
    cases htr : u.load.transfer <;> cases stage <;>
      simp [Block.reference?, Block.isSite, htr, Stage.state, Block.size, Block.entries, Use.lines,
        Use.longLines, Use.transferLine]

theorem relaxed_eq (h : Resolved d p r labels bs) :
    r.relaxed = ((body d p.lines).zip (Outline.sizes d p.lines)).countP
      fun x => (x.1.mentioned? d).isSome && x.2 == 1 := by
  calc r.relaxed
      = (finalBlocks bs).countP (fun b => b.isSite && b.size == 1) := by
        rw [h.finish_cases.2.2.2, List.countP_filterMap]
        simp only [isRelaxed_eq]
    _ = (((finalBlocks bs).map Block.isSite).zip ((finalBlocks bs).map Block.size)).countP
          (fun x => x.1 && x.2 == 1) := by
        rw [List.zip_map', List.countP_map]
        rfl
    _ = (((body d p.lines).map fun l => (l.mentioned? d).isSome).zip
          (Outline.sizes d p.lines)).countP (fun x => x.1 && x.2 == 1) := by
        rw [h.map_isSite, h.sizes_eq]
    _ = _ := by
        rw [List.zip_map_left, List.countP_map]
        rfl

theorem map_name_references (h : Resolved d p r labels bs) :
    ((finalBlocks bs).filterMap Block.reference?).map (·.label.name) =
      Outline.mentioned d p.lines := by
  have hnames : (finalBlocks bs).map (fun b => b.reference?.map (·.label.name)) =
      (body d p.lines).map (Line.mentioned? d) := by
    rw [map_finalBlocks (fun _ b => by cases b <;> rfl), ← Label.strip_lines,
      Program.lines_eq_map_entries, List.map_map]
    refine map_eq_of_forall₂ h.blocks fun e b he => ?_
    cases he with
    | plain hnone => exact (Outline.mentioned?_eq_none.2 hnone).symm
    | site hu =>
      cases hu with
      | move hone hn _ _ => exact (Outline.mentioned?_of_names hone hn).symm
      | transfer hone hn _ _ _ => exact (Outline.mentioned?_of_names hone hn).symm
  rw [List.map_filterMap, Outline.mentioned]
  simpa [List.filterMap_map, Function.comp_def] using congrArg (List.filterMap id) hnames

/-- The warnings are about the declarations that no line of the body mentions. -/
theorem warnings_eq (h : Resolved d p r labels bs) :
    r.warnings = ((declarations d 0 p.lines).filter (·.name ∉ Outline.mentioned d p.lines)).map
      fun δ => .unusedLabel δ.name δ.line := by
  rw [h.finish_cases.2.1, Layout.warnings, h.labels_eq, List.filter_map, List.map_map,
    ← h.map_name_references]
  generalize (finalBlocks bs).filterMap Block.reference? = references
  refine congrArg (List.map _) (List.filter_congr fun δ _ => ?_)
  rw [Bool.eq_iff_iff]
  simp [Declaration.label]

end Resolved

end CompactRisc
