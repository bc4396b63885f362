import CompactRisc.Proofs.Acceptance

/-!
# The sweep, reference by reference

Relaxation tries each jump and call once, with the displacement that it has at its turn. Every
collapse after that moves lines, and with them the displacements of all that has been decided. This
module says what becomes of the decisions.

A reference that has collapsed keeps its displacement within what it was tried with, so its short
form always holds it. A reference that was refused and is in reach in the end refers to something
ahead of it: what lies behind a reference does not move any more when its turn comes.

Results:
* `Swept.reference_at`: every reference after the sweep belongs to one block.
* `Swept.triedWith`: the displacement that a reference is tried with is the one in `Sizing`.
* `Program.resolve_short_shrinks`: displacements of collapsed references only shrink.
* `Program.resolve_misses_ahead`: the sweep misses nothing but references ahead.
-/
namespace CompactRisc

open Layout

namespace Layout

/-- The layout when the first `n` references have been tried. -/
def tried (s : Layout) (n : Nat) : Except Fault Layout := (List.range n).foldlM relaxReference s

/-- When its turn comes, reference `n` is `x`, a jump or call by way of `t`, and it is tried with the
displacement `v`. -/
def TriedWith (s : Layout) (n : Nat) (x : Reference) (t : Transfer) (v : Int) : Prop :=
  ∃ now, s.tried n = .ok now ∧ now.references[n]? = some x ∧ x.transfer = some t ∧
    now.displacement x.label t.line = .ok v

end Layout

/-- A resolved program at two moments of its resolution: `s` is the layout before the sweep, with all
references expanded, and `s'` the one after it. -/
structure Swept (d : Dialect) (p : Program) (r : Resolution) (s s' : Layout) (labels : Array Label)
    (bs : List Block) : Prop where
  expand_eq : Layout.ofProgram d p >>= Layout.expand d = .ok s
  relax_eq : s.relax = .ok s'
  before : Represents s bs
  after : Represents s' (staged bs (stages (items bs) (Sizing.finalSizes (items bs)) bs.length 0))
  fresh : Fresh bs
  targeted : Targeted bs
  resolved : Resolved d p r labels bs

theorem Program.swept {d : Dialect} {p : Program} {r : Resolution} (hp : p.Valid)
    (h : p.resolve d = .ok r) : ∃ s s' labels bs, Swept d p r s s' labels bs := by
  obtain ⟨labels, s, bs, hlabels, hexpand, hrep, -, hres⟩ := resolved_from hp h
  have hfresh := fresh_of_expands hres.blocks
  have htarget := targeted_of_labels hlabels hres.blocks
  obtain ⟨s', hrelax, hrep', -⟩ := exists_relaxed hfresh htarget hrep rfl
  exact ⟨s, s', labels, bs, hexpand, hrelax, hrep, hrep', hfresh, htarget, hres⟩

theorem exists_getElem?_of_filterMap {α β : Type} {f : α → Option β} {as : List α} {n : Nat} {b : β}
    (h : (as.filterMap f)[n]? = some b) :
    ∃ k a, as[k]? = some a ∧ f a = some b ∧ ((as.take k).filterMap f).length = n := by
  induction as generalizing n with
  | nil => simp at h
  | cons a as ih =>
    rw [List.filterMap_cons] at h
    cases hf : f a with
    | none =>
      rw [hf] at h
      obtain ⟨k, a', hk, ha', hn⟩ := ih h
      exact ⟨k + 1, a', hk, ha', by simpa [hf] using hn⟩
    | some b' =>
      rw [hf] at h
      cases n with
      | zero =>
        cases h
        exact ⟨0, a, rfl, hf, rfl⟩
      | succ n =>
        obtain ⟨k, a', hk, ha', hn⟩ := ih h
        exact ⟨k + 1, a', hk, ha', by simpa [hf] using hn⟩

namespace Swept

variable {d : Dialect} {p : Program} {r : Resolution} {s s' : Layout} {labels : Array Label}
  {bs : List Block} {n k : Nat} {x : Reference} {id high transfer : LineId} {source : Nat} {u : Use}
  {through short : Instruction}

theorem final_at (hk : bs[k]? = some (.site id high transfer source u .loading)) :
    (finalBlocks bs)[k]? = some (.site id high transfer source u (finalStage (items bs) k)) := by
  rw [getElem?_finalBlocks, hk]
  rfl

section Site

variable (h : Swept d p r s s' labels bs)
  (hk : bs[k]? = some (.site id high transfer source u .loading))

include h hk

theorem reference_of : s'.references[(bs.take k).countP Block.isSite]? =
    some ⟨u.label, id, high, u.load.transfer.map fun t => ⟨transfer, t.2⟩,
      if (Sizing.finalSizes (items bs))[k]? = some 1 then .relaxed else .expanded⟩ := by
  have hlt : k < bs.length := (List.getElem?_eq_some_iff.1 hk).1
  have hstaged : (staged bs (stages (items bs) (Sizing.finalSizes (items bs)) bs.length 0))[k]? =
      some (.site id high transfer source u
        (stages (items bs) (Sizing.finalSizes (items bs)) bs.length 0 k)) := by
    rw [getElem?_staged, hk]
    rfl
  rw [h.after.getElem?_references_staged hstaged]
  by_cases hsize : (Sizing.finalSizes (items bs))[k]? = some 1
  · simp [stages, hsize, hlt, Stage.state]
  · simp [stages, hsize, Stage.state]

/-- A jump or call is tried with the displacement that the sizes of its turn give. -/
theorem triedWith (hu : u.load.transfer = some (through, short)) :
    s.TriedWith ((bs.take k).countP Block.isSite)
      ⟨u.label, id, high, some ⟨transfer, short⟩, .expanded⟩ ⟨transfer, short⟩
      (Sizing.reach (Sizing.sizesAfter (items bs) k) ((bs.map Block.id).idxOf u.label.target) k) := by
  have hlt : k < bs.length := (List.getElem?_eq_some_iff.1 hk).1
  have hstart := h.before
  rw [← staged_of_fresh h.fresh] at hstart
  obtain ⟨now, hrun, hnow, -⟩ := relax_run h.targeted hstart rfl (Nat.le_of_lt hlt)
  have hstaged : (staged bs (stages (items bs) (Sizing.sizesAfter (items bs) k) 0 0))[k]? =
      some (.site id high transfer source u .loading) := by
    rw [getElem?_staged, hk, Option.map_some,
      stages_of_long _ (long_until_turn hk (Nat.le_refl k))]
    rfl
  refine ⟨now, hrun, ?_, rfl, ?_⟩
  · have hread := hnow.getElem?_references_staged hstaged
    rwa [hu] at hread
  · have hdisp := hnow.displacement_transfer hstaged rfl (by rw [hu]; rfl)
      (h.targeted _ _ _ _ _ _ (List.mem_of_getElem? hk))
    rwa [map_size_stages (Sizing.conform_sizesAfter _ _)] at hdisp

/-! ## The end of the resolution -/

theorem shortForm_eq (hu : u.load.transfer = some (through, short)) :
    through.shortForm? = some short := by
  obtain ⟨e, -, hexpands⟩ := getElem?_left_of_forall₂ h.resolved.blocks hk
  cases hexpands with
  | site huses =>
    cases huses with
    | move => cases hu
    | transfer _ _ _ hform _ =>
      cases hu
      exact hform

theorem item_at (hu : u.load.transfer = some (through, short)) :
    ∃ least greatest, short.shape.displacementRange? = some (least, greatest) ∧
      least ≤ 0 ∧ 0 ≤ greatest ∧ (items bs)[k]? =
        some (.transfer ((bs.map Block.id).idxOf u.label.target) least greatest) := by
  rw [h.resolved.items_eq]
  exact h.resolved.transfer_item hk hu (h.shortForm_eq hk hu)

theorem transfer_of_short (hshort : (Sizing.finalSizes (items bs))[k]? = some 1) :
    ∃ through short, u.load.transfer = some (through, short) := by
  cases hu : u.load.transfer with
  | none =>
    have hlong := h.resolved.long_of_load hk hu
    rw [Outline.sizes, ← h.resolved.items_eq] at hlong
    exact absurd hshort hlong
  | some t => exact ⟨t.1, t.2, rfl⟩

theorem position_low :
    r.program.position id = some (Sizing.address (Sizing.finalSizes (items bs)) k) := by
  have hpos := h.resolved.layout.position (final_at hk)
  rwa [map_size_finalBlocks] at hpos

theorem position_label :
    r.program.position u.label.target = some (Sizing.address (Sizing.finalSizes (items bs))
      ((bs.map Block.id).idxOf u.label.target)) := by
  have hpos := Represents.position_target h.resolved.layout
    (h.targeted _ _ _ _ _ _ (List.mem_of_getElem? hk))
  rwa [← finalBlocks, map_size_finalBlocks] at hpos

theorem position_long (hlong : (Sizing.finalSizes (items bs))[k]? ≠ some 1)
    (hu : u.load.transfer = some (through, short)) :
    r.program.position high = some (Sizing.address (Sizing.finalSizes (items bs)) k + 1) ∧
      r.program.position transfer = some (Sizing.address (Sizing.finalSizes (items bs)) k + 2) := by
  have hstage : (finalStage (items bs) k).isShort = false := by
    simp [finalStage, hlong, Stage.isShort]
  have hpos := h.resolved.layout.position_long (final_at hk) hstage
  rw [map_size_finalBlocks] at hpos
  exact ⟨hpos.1, hpos.2 (by rw [hu]; rfl)⟩

theorem line_short (hshort : (Sizing.finalSizes (items bs))[k]? = some 1)
    (hu : u.load.transfer = some (through, short)) :
    r.program.line id = ⟨[short.mnemonic, Text.decimal
      (Sizing.displacement (items bs) (Sizing.finalSizes (items bs)) k)], source⟩ := by
  have hstage : finalStage (items bs) k =
      .settled (Sizing.displacement (items bs) (Sizing.finalSizes (items bs)) k) := if_pos hshort
  have hfinal := final_at hk
  rw [hstage] at hfinal
  refine Program.line_of_mem_entries (e := (id, _)) ?_
  rw [h.resolved.layout.entries]
  refine List.mem_flatMap.2 ⟨_, List.mem_of_getElem? hfinal, ?_⟩
  simp [Block.entries, Use.lines, Use.shortLine, Use.shortMnemonic, hu]

end Site

theorem reference_at (h : Swept d p r s s' labels bs) (hn : s'.references[n]? = some x) :
    ∃ k id high transfer source u, bs[k]? = some (.site id high transfer source u .loading) ∧
      (bs.take k).countP Block.isSite = n ∧
      x = ⟨u.label, id, high, u.load.transfer.map fun t => ⟨transfer, t.2⟩,
        if (Sizing.finalSizes (items bs))[k]? = some 1 then .relaxed else .expanded⟩ := by
  have hread := hn
  rw [h.after.references_eq, List.getElem?_toArray] at hread
  obtain ⟨k, b, hk, hb, hcount⟩ := exists_getElem?_of_filterMap hread
  rw [take_staged, length_references_staged] at hcount
  rw [getElem?_staged] at hk
  obtain ⟨b₀, hk₀, rfl⟩ := Option.map_eq_some_iff.1 hk
  cases b₀ with
  | plain id l => cases hb
  | site id high transfer source u stage =>
    have hfresh := h.fresh _ (List.mem_of_getElem? hk₀)
    rw [← hfresh] at hk₀
    refine ⟨k, id, high, transfer, source, u, hk₀, hcount, ?_⟩
    rw [← hcount, h.reference_of hk₀] at hn
    exact (Option.some.inj hn).symm

theorem site_of_transfer (h : Swept d p r s s' labels bs) {target : Nat} {least greatest : Int}
    (hitem : (items bs)[k]? = some (.transfer target least greatest)) :
    ∃ id high transfer source u through short,
      bs[k]? = some (.site id high transfer source u .loading) ∧
      u.load.transfer = some (through, short) ∧
      short.shape.displacementRange? = some (least, greatest) ∧
      (bs.map Block.id).idxOf u.label.target = target := by
  rw [items, List.getElem?_map] at hitem
  obtain ⟨b, hk, hb⟩ := Option.map_eq_some_iff.1 hitem
  have hfresh := h.fresh b (List.mem_of_getElem? hk)
  cases b with
  | plain id l => cases hb
  | site id high transfer source u stage =>
    rw [← hfresh] at hk
    cases hu : u.load.transfer with
    | none =>
      rw [Block.item, hu] at hb
      cases hb
    | some t =>
      obtain ⟨through, short⟩ := t
      obtain ⟨least', greatest', hrange, -, -, hitem'⟩ := h.item_at hk hu
      rw [items, List.getElem?_map, hitem] at hitem'
      cases hitem'
      exact ⟨id, high, transfer, source, u, through, short, hk, hu, hrange, rfl⟩

end Swept

theorem Instruction.range_of_shortForm? {i short : Instruction} {least greatest w : Int}
    (hform : i.shortForm? = some short)
    (hrange : short.shape.displacementRange? = some (least, greatest))
    (hw : least ≤ w ∧ w ≤ greatest) :
    (∃ c, short.shape = .branch c) ∧ -128 ≤ w ∧ w ≤ 127 ∨
      short.shape = .callNear ∧ -2048 ≤ w ∧ w ≤ 2047 := by
  rcases (shortForm?_eq_some hform).2 with ⟨c, -, hshape⟩ | ⟨-, hshape⟩
  · rw [hshape] at hrange
    cases hrange
    exact Or.inl ⟨⟨c, hshape⟩, hw⟩
  · rw [hshape] at hrange
    cases hrange
    exact Or.inr ⟨hshape, hw⟩

/-- A reference that has collapsed keeps the sign of the displacement that it was tried with and
comes no farther from zero, whatever collapses later. So its short form holds the displacement, and
the encoder takes the line. -/
theorem Program.resolve_short_shrinks {d : Dialect} {p : Program} {r : Resolution} (hp : p.Valid)
    (h : p.resolve d = .ok r) :
    ∃ s s', Layout.ofProgram d p >>= Layout.expand d = .ok s ∧ s.relax = .ok s' ∧
      ∀ (n : Nat) (x : Reference), s'.references[n]? = some x → x.state = .relaxed →
        ∃ (t : Transfer) (v w : Int) (a q : Nat),
          s.TriedWith n { x with state := .expanded } t v ∧
          r.program.position x.label.target = some a ∧ r.program.position x.low = some q ∧
          w = (a : Int) - q - 1 ∧
          (r.program.line x.low).tokens = [t.short.mnemonic, Text.decimal w] ∧
          (a ≤ q → v < 0 ∧ w < 0) ∧ (q < a → 0 ≤ v ∧ 0 ≤ w) ∧ w.natAbs ≤ v.natAbs ∧
          ((∃ c, t.short.shape = .branch c) ∧ -128 ≤ w ∧ w ≤ 127 ∨
            t.short.shape = .callNear ∧ -2048 ≤ w ∧ w ≤ 2047) ∧
          (r.program.line x.low).Means t.short [.immediate w] := by
  obtain ⟨s, s', labels, bs, hs⟩ := swept hp h
  refine ⟨s, s', hs.expand_eq, hs.relax_eq, fun n x hn hx => ?_⟩
  obtain ⟨k, id, high, transfer, source, u, hk, rfl, rfl⟩ := hs.reference_at hn
  have hshort : (Sizing.finalSizes (items bs))[k]? = some 1 := by
    by_contra hlong
    simp [hlong] at hx
  obtain ⟨through, short, hu⟩ := hs.transfer_of_short hk hshort
  obtain ⟨least, greatest, hrange, hleast, hgreatest, hitem⟩ := hs.item_at hk hu
  obtain ⟨hback, hahead, habs⟩ := Sizing.displacement_shrinks hitem hshort
  have hfits := Sizing.displacement_fits hitem hshort hleast hgreatest
  have hline := hs.line_short hk hshort hu
  have hform := hs.shortForm_eq hk hu
  -- positions are in the order of the blocks
  have horder : Sizing.address (Sizing.finalSizes (items bs)) _ ≤ _ ↔
      (bs.map Block.id).idxOf u.label.target ≤ k := Sizing.address_le_iff hshort Nat.one_pos
  refine ⟨⟨transfer, short⟩, _, _, _, _, ?_, hs.position_label hk, hs.position_low hk,
    Sizing.displacement_transfer hitem _, ?_, fun hle => hback (horder.1 hle),
    fun hlt => hahead (Nat.lt_of_not_le (mt horder.2 (Nat.not_le.2 hlt))), habs,
    Instruction.range_of_shortForm? hform hrange hfits, ?_⟩
  · simpa [hu] using hs.triedWith hk hu
  · rw [hline]
  · rw [hline]
    exact Line.means_short (Instruction.shortForm?_eq_some hform).1 hrange hfits.1 hfits.2 source

/-- A jump ahead over a call that collapses after it. -/
theorem Program.resolve_short_shrinks_forward : ∃ r s s' x,
    (ofLines [⟨["JUC", ".end$r2"], 1⟩, ⟨["CALL", ".end$r3"], 2⟩, ⟨[".end"], 3⟩,
      ⟨["NOP"], 4⟩]).resolve {} = .ok r ∧
    Layout.ofProgram {} (ofLines [⟨["JUC", ".end$r2"], 1⟩, ⟨["CALL", ".end$r3"], 2⟩,
      ⟨[".end"], 3⟩, ⟨["NOP"], 4⟩]) >>= Layout.expand {} = .ok s ∧ s.relax = .ok s' ∧
    s'.references[0]? = some x ∧ x.state = .relaxed ∧ ∃ (t : Transfer) (v w : Int),
      s.TriedWith 0 { x with state := .expanded } t v ∧ w.natAbs ≤ v.natAbs ∧
      (r.program.line x.low).Means t.short [.immediate w] := by
  obtain ⟨r, h⟩ := exists_ok_of_isOk (x := (ofLines [⟨["JUC", ".end$r2"], 1⟩,
    ⟨["CALL", ".end$r3"], 2⟩, ⟨[".end"], 3⟩, ⟨["NOP"], 4⟩]).resolve {}) (by decide +kernel)
  obtain ⟨s, s', hs, hs', hshrinks⟩ := resolve_short_shrinks (valid_ofLines _) h
  have hstate : ((Layout.ofProgram {} (ofLines [⟨["JUC", ".end$r2"], 1⟩, ⟨["CALL", ".end$r3"], 2⟩,
      ⟨[".end"], 3⟩, ⟨["NOP"], 4⟩]) >>= Layout.expand {}) >>= Layout.relax).toOption.bind
      (fun s => s.references[0]?.map Reference.state) = some .relaxed := by decide +kernel
  rw [hs, ok_bind, hs'] at hstate
  obtain ⟨x, hx, hrelaxed⟩ := Option.map_eq_some_iff.1 hstate
  obtain ⟨t, v, w, a, q, htried, -, -, -, -, -, -, habs, -, hmeans⟩ := hshrinks 0 x hx hrelaxed
  exact ⟨r, s, s', x, h, hs, hs', hx, hrelaxed, t, v, w, htried, habs, hmeans⟩

/-- A jump or call that is still long and does not go ahead was tried with the displacement that it
has in the end, and is out of reach. So one that is in reach in the end goes ahead, and was too far
away when it was tried. -/
theorem Program.resolve_misses_ahead {d : Dialect} {p : Program} {r : Resolution} (hp : p.Valid)
    (h : p.resolve d = .ok r) :
    ∃ s s', Layout.ofProgram d p >>= Layout.expand d = .ok s ∧ s.relax = .ok s' ∧
      ∀ (n : Nat) (x : Reference) (t : Transfer), s'.references[n]? = some x →
        x.transfer = some t → x.state ≠ .relaxed →
        ∃ (v least greatest : Int) (a q : Nat),
          s.TriedWith n x t v ∧ t.short.shape.displacementRange? = some (least, greatest) ∧
          r.program.position x.label.target = some a ∧ r.program.position x.low = some q ∧
          r.program.position x.high = some (q + 1) ∧ r.program.position t.line = some (q + 2) ∧
          (a ≤ q → (a : Int) - (q + 2 : Nat) - 1 = v ∧ v < least) ∧
          (least ≤ (a : Int) - (q + 2 : Nat) - 1 → (a : Int) - (q + 2 : Nat) - 1 ≤ greatest →
            q + 2 < a ∧ greatest < v) := by
  obtain ⟨s, s', labels, bs, hs⟩ := swept hp h
  refine ⟨s, s', hs.expand_eq, hs.relax_eq, fun n x t hn ht hx => ?_⟩
  obtain ⟨k, id, high, transfer, source, u, hk, rfl, rfl⟩ := hs.reference_at hn
  have hlong : (Sizing.finalSizes (items bs))[k]? ≠ some 1 := by
    intro hshort
    simp [hshort] at hx
  obtain ⟨⟨through, short⟩, hu, rfl⟩ := Option.map_eq_some_iff.1 ht
  obtain ⟨least, greatest, hrange, hleast, hgreatest, hitem⟩ := hs.item_at hk hu
  obtain ⟨hhigh, htransfer⟩ := hs.position_long hk hlong hu
  have hthree := Sizing.size_of_long hitem hlong
  have horder : Sizing.address (Sizing.finalSizes (items bs)) _ ≤ _ ↔
      (bs.map Block.id).idxOf u.label.target ≤ k := Sizing.address_le_iff hthree (by decide)
  refine ⟨_, least, greatest, _, _, ?_, hrange, hs.position_label hk, hs.position_low hk, hhigh,
    htransfer, fun hle => Sizing.long_back hitem hlong hgreatest (horder.1 hle), fun hin _ => ?_⟩
  · simpa [hu, hlong] using hs.triedWith hk hu
  · obtain ⟨hahead, hout⟩ := Sizing.long_in_reach hitem hlong hleast hgreatest hin
    exact ⟨Sizing.address_add_size_le hthree hahead, hout⟩

/-- A jump that a call after it brings into reach, too late. -/
def lateCall : List Line :=
  ⟨["JUC", ".end$r2"], 1⟩ :: ⟨["CALL", ".end$r3"], 2⟩ :: List.replicate 125 ⟨["NOP"], 3⟩ ++
    [⟨[".end"], 4⟩, ⟨["NOP"], 5⟩]

/-- The jump stays long with a displacement of 126 in the end. -/
theorem Program.resolve_misses_ahead_late : ∃ r s s' x t v a q,
    (ofLines lateCall).resolve {} = .ok r ∧
    Layout.ofProgram {} (ofLines lateCall) >>= Layout.expand {} = .ok s ∧ s.relax = .ok s' ∧
    s'.references[0]? = some x ∧ x.transfer = some t ∧ x.state ≠ .relaxed ∧
    s.TriedWith 0 x t v ∧ 127 < v ∧ r.program.position x.label.target = some a ∧
    r.program.position t.line = some q ∧ (a : Int) - q - 1 = 126 := by
  have hp := valid_ofLines lateCall
  have hlabels : Label.ofProgram {} (ofLines lateCall) = .ok #[⟨".end", 128, 4⟩] := by
    decide +kernel
  have huse : ∀ l ∈ body {} lateCall, (l.use {} #[⟨".end", 128, 4⟩]).isOk = true := by
    decide +kernel
  obtain ⟨r, h⟩ := (exists_resolve hp hlabels).2 fun l hl => exists_ok_of_isOk
    (huse l (by rwa [lines_ofLines] at hl))
  obtain ⟨s, s', hs, hs', hmisses⟩ := resolve_misses_ahead hp h
  obtain ⟨s₁, s₁', labels, bs, hswept⟩ := swept hp h
  cases hs.symm.trans hswept.expand_eq
  cases hs'.symm.trans hswept.relax_eq
  have hitems : items bs = Outline.items {} lateCall := by
    rw [hswept.resolved.items_eq, lines_ofLines]
  have hsizes : Sizing.finalSizes (items bs) = 3 :: List.replicate 127 1 := by
    rw [hitems]
    decide +kernel
  have hitem : (items bs)[0]? = some (.transfer 127 (-128) 127) := by
    rw [hitems]
    decide +kernel
  obtain ⟨id, high, transfer, source, u, through, short, hk, hu, hrange, htarget⟩ :=
    hswept.site_of_transfer hitem
  have hx := hswept.reference_of hk
  rw [hsizes, hu] at hx
  obtain ⟨v, least, greatest, a, q, htried, hrange', ha, hq, -, htransfer, -, hahead⟩ :=
    hmisses 0 _ ⟨transfer, short⟩ hx rfl (by simp)
  cases hrange.symm.trans hrange'
  have hend : Sizing.address (3 :: List.replicate 127 1) 127 = 129 := by decide +kernel
  have hlabel := hswept.position_label hk
  have hlow : r.program.position id = some 0 := hswept.position_low hk
  rw [htarget, hsizes, hend] at hlabel
  cases ha.symm.trans hlabel
  cases hq.symm.trans hlow
  exact ⟨r, s, s', _, _, v, _, _, h, hs, hs', hx, rfl, by simp, htried,
    (hahead (by decide) (by decide)).2, ha, htransfer, by decide⟩

end CompactRisc
