import CompactRisc.Proofs.Layout.Phases

/-!
# Sound layouts

Labels and references hold on to lines by their handles. A layout is sound if each handle stands for
the line that its owner takes it for: the lines of a reference are one after the other until it
collapses, and no label stands for a line that came in with a reference.

Results:
* `Represents.position_short`: of a block that has collapsed only the first line is left.
* `Represents.sound`: a layout that is a list of blocks is sound.
-/
namespace CompactRisc

open Layout

/-- The lines of a reference are where its state says. -/
inductive Reference.Placed (p : Program) (x : Reference) : Prop
  /-- Until it collapses they stand one after the other, and the two loads have three tokens. -/
  | long {q : Nat} (state : x.state ≠ .relaxed) (low : p.position x.low = some q)
      (high : p.position x.high = some (q + 1))
      (transfer : ∀ t ∈ x.transfer, p.position t.line = some (q + 2))
      (lowTokens : (p.line x.low).tokens.length = 3)
      (highTokens : (p.line x.high).tokens.length = 3)
  /-- After that only the first one is left, with two tokens. -/
  | short {q : Nat} (state : x.state = .relaxed) (low : p.position x.low = some q)
      (high : p.position x.high = none) (transfer : ∀ t ∈ x.transfer, p.position t.line = none)
      (tokens : (p.line x.low).tokens.length = 2)

namespace Layout

/-- The handles that the labels and references of a layout hold are good. -/
structure Sound (s : Layout) : Prop where
  valid : s.program.Valid
  /-- A label stands for a line of the sequence. -/
  target : ∀ label ∈ s.labels, (s.program.position label.target).isSome = true
  /-- A reference is to one of the labels. -/
  label : ∀ x ∈ s.references, x.label ∈ s.labels
  placed : ∀ x ∈ s.references, x.Placed s.program
  /-- No label stands for a line that has come in with a reference. -/
  apart : ∀ label ∈ s.labels, ∀ x ∈ s.references,
    label.target ≠ x.high ∧ ∀ t ∈ x.transfer, label.target ≠ t.line

/-! ## Blocks -/

/-- The handles of the lines that have come in with the block. -/
def Block.added (b : Block) : List LineId := b.handles.tail

theorem Block.handles_eq_cons (b : Block) : b.handles = b.id :: b.added := by
  cases b <;> rfl

theorem Block.mem_added {id high transfer : LineId} {source : Nat} {u : Use} {stage : Stage}
    {x : Reference} (h : (Block.site id high transfer source u stage).reference? = some x) :
    x.high ∈ (Block.site id high transfer source u stage).added ∧
      ∀ t ∈ x.transfer, t.line ∈ (Block.site id high transfer source u stage).added := by
  cases h
  cases htr : u.load.transfer <;> simp [Block.added, Block.handles, Use.transferLine, htr]

/-- Only the lines that have come in are not at hand in every stage, and in the short form none of
them is. -/
theorem Block.map_fst_entries {id high transfer : LineId} {source : Nat} {u : Use} {stage : Stage} :
    (Block.site id high transfer source u stage).entries.map Prod.fst =
      if stage.isShort then [id] else (Block.site id high transfer source u stage).handles := by
  cases htr : u.load.transfer <;> cases stage <;>
    simp [Block.entries, Block.handles, Use.lines, Use.longLines, Use.transferLine, htr,
      Stage.isShort]

theorem Block.map_fst_entries_subset (b : Block) : b.entries.map Prod.fst ⊆ b.handles := by
  cases b with
  | plain id l => exact List.Subset.refl _
  | site id high transfer source u stage =>
    rw [map_fst_entries, handles_eq_cons]
    split
    · exact List.cons_subset_cons _ (List.nil_subset _)
    · exact List.Subset.refl _

section Represents

variable {s : Layout} {bs : List Block} (h : Represents s bs)

include h

theorem Represents.not_mem_others {A B : List Block} {b : Block} (hbs : bs = A ++ b :: B)
    {x : LineId} (hx : x ∈ b.handles) :
    x ∉ A.flatMap Block.handles ∧ x ∉ B.flatMap Block.handles := by
  have hdistinct := h.distinct
  rw [hbs, List.flatMap_append, List.flatMap_cons] at hdistinct
  have hout := List.nodup_append.1 hdistinct
  have hin := List.nodup_append.1 hout.2.1
  exact ⟨fun hA => hout.2.2 x hA x (List.mem_append_left _ hx) rfl,
    fun hB => hin.2.2 x hx x hB rfl⟩

theorem Represents.id_ne_added {b c : Block} (hb : b ∈ bs) (hc : c ∈ bs) {x : LineId}
    (hx : x ∈ c.added) : b.id ≠ x := by
  rintro rfl
  obtain ⟨A, B, hbs⟩ := List.append_of_mem hb
  have hown : b.id ∈ b.handles := by simp [Block.handles_eq_cons]
  have hothers := h.not_mem_others hbs hown
  have hcx : b.id ∈ c.handles := by simp [Block.handles_eq_cons, hx]
  rw [hbs, List.mem_append, List.mem_cons] at hc
  rcases hc with hA | rfl | hB
  · exact hothers.1 (List.mem_flatMap.2 ⟨c, hA, hcx⟩)
  · have hdistinct := h.distinct
    rw [hbs, List.flatMap_append, List.flatMap_cons, Block.handles_eq_cons] at hdistinct
    have hin := (List.nodup_append.1 (List.nodup_append.1 hdistinct).2.1).1
    exact (List.nodup_cons.1 hin).1 hx
  · exact hothers.2 (List.mem_flatMap.2 ⟨c, hB, hcx⟩)

/-- The lines that have come in with a block are taken out when it gets short. -/
theorem Represents.position_short {id high transfer : LineId} {source : Nat} {u : Use}
    {stage : Stage} (hb : Block.site id high transfer source u stage ∈ bs)
    (hshort : stage.isShort = true) {x : LineId}
    (hx : x ∈ (Block.site id high transfer source u stage).added) :
    s.program.position x = none := by
  apply h.valid.position_eq_none
  obtain ⟨A, B, hbs⟩ := List.append_of_mem hb
  have hothers := h.not_mem_others hbs (x := x) (by simp [Block.handles_eq_cons, hx])
  have hkeys : ∀ C : List Block, (C.flatMap Block.entries).map Prod.fst ⊆
      C.flatMap Block.handles := by
    intro C y hy
    rw [List.map_flatMap] at hy
    obtain ⟨c, hc, hy⟩ := List.mem_flatMap.1 hy
    exact List.mem_flatMap.2 ⟨c, hc, c.map_fst_entries_subset hy⟩
  rw [Program.ids_eq_map_entries, h.entries, hbs, List.flatMap_append, List.flatMap_cons,
    List.map_append, List.map_append, Block.map_fst_entries, if_pos hshort]
  intro hmem
  rcases List.mem_append.1 hmem with hA | hmem
  · exact hothers.1 (hkeys A hA)
  rcases List.mem_append.1 hmem with hown | hB
  · exact h.id_ne_added hb hb hx (List.mem_singleton.1 hown).symm
  · exact hothers.2 (hkeys B hB)

theorem Represents.line_eq {b : Block} (hb : b ∈ bs) {e : LineId × Line} (he : e ∈ b.entries) :
    s.program.line e.1 = e.2 := by
  apply Program.line_of_mem_entries
  rw [h.entries]
  exact List.mem_flatMap.2 ⟨b, hb, he⟩

end Represents

/-- The reference of a block is where the stage of the block puts it. -/
theorem Represents.placed {s : Layout} {bs : List Block} (h : Represents s bs) {b : Block}
    (hb : b ∈ bs) {x : Reference} (hx : b.reference? = some x) : x.Placed s.program := by
  obtain ⟨k, hk⟩ := List.getElem?_of_mem hb
  cases b with
  | plain id l => cases hx
  | site id high transfer source u stage =>
    have hlow : s.program.position id = _ := h.position hk
    cases hshort : stage.isShort with
    | true =>
      have hadded := Block.mem_added hx
      have hline : ∃ t, s.program.line id = u.shortLine source t := by
        cases stage with
        | loading | loaded a => cases hshort
        | near | settled v => exact ⟨_, h.line_eq hb List.mem_cons_self⟩
      obtain ⟨t, hline⟩ := hline
      cases hx
      refine .short ?_ hlow (h.position_short hb hshort hadded.1)
        (fun t ht => h.position_short hb hshort (hadded.2 t ht)) ?_
      · cases stage <;> simp_all [Stage.isShort, Stage.state]
      · simp [hline, Use.shortLine]
    | false =>
      obtain ⟨hhigh, htransfer⟩ := h.position_long hk hshort
      obtain ⟨low, up, hlines⟩ := lines_of_long u source hshort
      have hfirst : s.program.line id = _ :=
        h.line_eq hb (e := (id, _)) (by rw [Block.entries, hlines]; exact List.mem_cons_self)
      have hsecond : s.program.line high = _ :=
        h.line_eq hb (e := (high, _)) (by
          rw [Block.entries, hlines]
          exact List.mem_cons_of_mem _ List.mem_cons_self)
      cases hx
      refine .long ?_ hlow hhigh ?_ ?_ ?_
      · cases stage <;> simp_all [Stage.isShort, Stage.state]
      · intro t ht
        obtain ⟨y, hy, rfl⟩ := Option.map_eq_some_iff.1 ht
        exact htransfer (by rw [hy]; rfl)
      · simp [hfirst, lowTokens]
      · simp [hsecond, highTokens]

/-- The labels and the blocks go together: every label stands for the line of a block, and every
reference is to a label. -/
structure Anchored (labels : Array Label) (bs : List Block) : Prop where
  target : ∀ label ∈ labels, label.target ∈ bs.map Block.id
  label : ∀ b ∈ bs, ∀ x ∈ b.reference?, x.label ∈ labels

/-- The handles of a layout that is a list of blocks are good. -/
theorem Represents.sound {s : Layout} {bs : List Block} (h : Represents s bs)
    (hbs : Anchored s.labels bs) : s.Sound := by
  have hfrom : ∀ x ∈ s.references, ∃ b ∈ bs, b.reference? = some x := by
    intro x hx
    rw [← Array.mem_toList_iff, h.references] at hx
    exact List.mem_filterMap.1 hx
  refine ⟨h.valid, fun label hlabel => ?_, fun x hx => ?_, fun x hx => ?_,
    fun label hlabel x hx => ?_⟩
  · obtain ⟨b, hb, hid⟩ := List.mem_map.1 (hbs.target label hlabel)
    obtain ⟨k, hk⟩ := List.getElem?_of_mem hb
    rw [← hid, h.position hk]
    rfl
  · obtain ⟨b, hb, hbx⟩ := hfrom x hx
    exact hbs.label b hb x hbx
  · obtain ⟨b, hb, hbx⟩ := hfrom x hx
    exact h.placed hb hbx
  · obtain ⟨b, hb, hid⟩ := List.mem_map.1 (hbs.target label hlabel)
    obtain ⟨c, hc, hcx⟩ := hfrom x hx
    rw [← hid]
    cases c with
    | plain id l => cases hcx
    | site id high transfer source u stage =>
      have hadded := Block.mem_added hcx
      exact ⟨h.id_ne_added hb hc hadded.1, fun t ht => h.id_ne_added hb hc (hadded.2 t ht)⟩

end Layout

end CompactRisc
