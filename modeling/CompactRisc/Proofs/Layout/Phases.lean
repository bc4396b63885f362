import CompactRisc.Proofs.Layout.Blocks

/-!
# The phases of a layout

Each phase of the resolution runs over the blocks of a layout, first to last, and moves the block
that it is at on to its next stage. `staged bs σ` is the list of blocks `bs` with block `k` at
stage `σ k`.

Results:
* `expand_run`: expansion reads every line of the body; it fails with the first fault, and otherwise
  turns each line into the block of its use.
* `Advances.sweep`: a step that is right at every block gives a run that is right.
* `relax_sweep`, `settle_sweep`: relaxation ends with the sizes that `Sizing.finalSizes` computes,
  and every short form has its displacement.
* `materialize_sweep`: materialization gives all others the bytes of the address.
* `exists_relaxed`, `exists_final`: after expansion nothing fails.
-/
namespace CompactRisc.Layout

/-! ## Expansion -/

theorem expandLine_eq {d : Dialect} {s : Layout} {id : LineId} {l : Line} {pos : Nat}
    (hl : s.program.line id = l) (hpos : s.program.position id = some pos) :
    s.expandLine d id = do
      match ← l.use d s.labels with
      | none => return s
      | some u => return s.insertLoad id pos l.source u.label u.load := by
  subst hl
  unfold expandLine Line.use
  rw [hpos]
  cases hf : Mention.find d s.labels (s.program.line id) with
  | error e => simp [hf]
  | ok found =>
    cases found with
    | none => simp [hf]
    | some m => cases hm : m.load d (s.program.line id) <;> simp [hf, hm]

/-- What a line of the body becomes. The handles of the lines that come in are not said. -/
inductive Expands (d : Dialect) (labels : Array Label) : LineId × Line → Block → Prop
  | plain {id : LineId} {l : Line} (h : l.labelTokens d = []) :
      Expands d labels (id, l) (.plain id l)
  | site {id : LineId} {l : Line} {u : Use} (h : l.Uses d labels u) (high transfer : LineId) :
      Expands d labels (id, l) (.site id high transfer l.source u .loading)

/-- The blocks of lines that have not been looked at. -/
def plainBlocks (entries : List (LineId × Line)) : List Block := entries.map fun e => .plain e.1 e.2

theorem reference?_plainBlocks (entries : List (LineId × Line)) :
    (plainBlocks entries).filterMap Block.reference? = [] := by
  induction entries with
  | nil => rfl
  | cons e entries ih =>
    rw [plainBlocks, List.map_cons, List.filterMap_cons]
    exact ih

/-- The step at the first line that is left: it fails with the fault of the line, or makes a block
of the line. -/
theorem expandLine_spec {d : Dialect} {labels : Array Label} {s : Layout} {done : List Block}
    {id : LineId} {l : Line} {rest : List (LineId × Line)}
    (h : Represents s (done ++ plainBlocks ((id, l) :: rest))) (hl : s.labels = labels)
    (hfirst : d.isLabel l.first = false) :
    match l.use d labels with
    | .error f => s.expandLine d id = .error f
    | .ok _ => ∃ s' b, s.expandLine d id = .ok s' ∧
        Represents s' ((done ++ [b]) ++ plainBlocks rest) ∧ s'.labels = labels ∧
        Expands d labels (id, l) b := by
  have hentries : s.program.entries =
      done.flatMap Block.entries ++ (id, l) :: (plainBlocks rest).flatMap Block.entries := by
    rw [h.entries, List.flatMap_append]
    rfl
  have hpos := h.valid.position_eq hentries
  have hline : s.program.line id = l :=
    Program.line_of_mem_entries (e := (id, l)) (by rw [hentries]; simp)
  rw [expandLine_eq hline hpos, hl]
  cases hu : l.use d labels with
  | error f => rfl
  | ok u? =>
    cases u? with
    | none =>
      refine ⟨s, .plain id l, rfl, ?_, hl, .plain (Line.use_eq_none.1 hu)⟩
      rw [← List.append_cons]
      exact h
    | some u =>
      have hnext := represents_insertLoad (u := u) h (reference?_plainBlocks rest) hpos
      rw [List.append_cons] at hnext
      exact ⟨_, _, rfl, hnext, (insertLoad_labels ..).trans hl,
        .site (Line.uses_of_use hfirst hu) _ _⟩

/-- The run over the next lines: either one of them is at fault, and the first such fault is the
result, or each becomes a block. The lines `later` are not looked at. -/
theorem expand_run (d : Dialect) {labels : Array Label} {later : List (LineId × Line)} :
    ∀ {now : List (LineId × Line)} {done : List Block} {s : Layout},
      Represents s (done ++ plainBlocks (now ++ later)) → s.labels = labels →
      (∀ e ∈ now, d.isLabel e.2.first = false) →
      match now.mapM (fun e => e.2.use d labels) with
      | .error f => (now.map Prod.fst).foldlM (expandLine d) s = .error f
      | .ok _ => ∃ s' bs, (now.map Prod.fst).foldlM (expandLine d) s = .ok s' ∧
          Represents s' (done ++ bs ++ plainBlocks later) ∧ s'.labels = labels ∧
          List.Forall₂ (Expands d labels) now bs
  | [], done, s, h, hl, _ => ⟨s, [], rfl, by simpa using h, hl, .nil⟩
  | (id, l) :: now, done, s, h, hl, hfirst => by
    have hstep := expandLine_spec h hl (hfirst _ List.mem_cons_self)
    rw [List.map_cons, List.foldlM_cons, List.mapM_cons]
    cases hu : l.use d labels with
    | error f =>
      rw [hu] at hstep
      simp only [hstep, error_bind]
    | ok u? =>
      rw [hu] at hstep
      obtain ⟨s₁, b, hs₁, hrep₁, hl₁, hb⟩ := hstep
      have ih := expand_run d hrep₁ hl₁ fun e he => hfirst e (List.mem_cons_of_mem _ he)
      simp only [hs₁, ok_bind]
      cases hm : now.mapM (fun e => e.2.use d labels) with
      | error f =>
        rw [hm] at ih
        exact ih
      | ok uses =>
        rw [hm] at ih
        obtain ⟨s', bs, hrun, hrep, hl', hbs⟩ := ih
        exact ⟨s', b :: bs, hrun, by rwa [List.append_cons], hl', .cons hb hbs⟩

theorem represents_plainBlocks {p : Program} (hp : p.Valid) (labels : Array Label) :
    Represents ⟨p, labels, #[]⟩ (plainBlocks p.entries) where
  valid := hp
  entries := by simp [plainBlocks, List.flatMap_map, Block.entries]
  references := by simp [reference?_plainBlocks]
  distinct := by
    have := hp.nodup
    rw [Program.ids_eq_map_entries] at this
    simpa [plainBlocks, List.flatMap_map, Block.handles, ← List.map_eq_flatMap] using this
  made := by
    intro h hh
    apply hp.lt_nextId
    rw [Program.ids_eq_map_entries]
    simpa [plainBlocks, List.flatMap_map, Block.handles, ← List.map_eq_flatMap] using hh

/-! ## Staged blocks -/

/-- The blocks with block `k` at stage `σ k`. -/
def staged (bs : List Block) (σ : Nat → Stage) : List Block :=
  bs.mapIdx fun k b => b.withStage (σ k)

def Block.isSite : Block → Bool
  | .plain .. => false
  | .site .. => true

theorem getElem?_staged (bs : List Block) (σ : Nat → Stage) (k : Nat) :
    (staged bs σ)[k]? = bs[k]?.map (Block.withStage (σ k)) := List.getElem?_mapIdx

theorem length_staged (bs : List Block) (σ : Nat → Stage) : (staged bs σ).length = bs.length :=
  List.length_mapIdx

theorem staged_eq {bs : List Block} {σ σ' : Nat → Stage} {k : Nat} {b : Block}
    (hk : bs[k]? = some b) (hkeep : ∀ j, j ≠ k → σ' j = σ j) :
    staged bs σ' =
      (staged bs σ).take k ++ b.withStage (σ' k) :: (staged bs σ).drop (k + 1) := by
  have hlt : k < (staged bs σ).length := by
    rw [length_staged]
    exact (List.getElem?_eq_some_iff.1 hk).1
  have hset : staged bs σ' = (staged bs σ).set k (b.withStage (σ' k)) := by
    apply List.ext_getElem?
    intro j
    by_cases hj : j = k
    · subst hj
      rw [getElem?_staged, hk, List.getElem?_set_self hlt]
      rfl
    · rw [List.getElem?_set_ne (Ne.symm hj), getElem?_staged, getElem?_staged, hkeep j hj]
  rw [hset, List.set_eq_take_append_cons_drop, if_pos hlt]

theorem take_staged (bs : List Block) (σ : Nat → Stage) (k : Nat) :
    (staged bs σ).take k = staged (bs.take k) σ := by
  apply List.ext_getElem?
  intro j
  rw [getElem?_staged, List.getElem?_take, List.getElem?_take, getElem?_staged]
  split <;> rfl

/-- The references come from the blocks that are references, at whatever stage. -/
theorem length_references_staged (bs : List Block) (σ : Nat → Stage) :
    ((staged bs σ).filterMap Block.reference?).length = bs.countP Block.isSite := by
  induction bs generalizing σ with
  | nil => rfl
  | cons b bs ih =>
    have hcons : staged (b :: bs) σ = b.withStage (σ 0) :: staged bs fun k => σ (k + 1) := by
      simp [staged, List.mapIdx_cons]
    rw [hcons, List.filterMap_cons, List.countP_cons, ← ih fun k => σ (k + 1)]
    cases b <;> rfl

/-- The step takes the reference of block `k` from stage `σ k k` to stage `σ (k + 1) k`, whatever
layout it is at. -/
def Advances (step : Layout → Nat → Except Fault Layout) (bs : List Block) (labels : Array Label)
    (σ : Nat → Nat → Stage) : Prop :=
  ∀ (k : Nat) (s : Layout) (A B : List Block) (id high transfer : LineId) (source : Nat)
    (u : Use) (stage : Stage), bs[k]? = some (.site id high transfer source u stage) →
    A.length = k → staged bs (σ k) = A ++ .site id high transfer source u (σ k k) :: B →
    Represents s (A ++ .site id high transfer source u (σ k k) :: B) → s.labels = labels →
    ∃ s', step s (A.filterMap Block.reference?).length = .ok s' ∧
      Represents s' (A ++ .site id high transfer source u (σ (k + 1) k) :: B) ∧
      s'.labels = labels

section Sweep

variable {step : Layout → Nat → Except Fault Layout} {bs : List Block} {labels : Array Label}
  {σ : Nat → Nat → Stage} {s : Layout}

theorem Advances.turn (hstep : Advances step bs labels σ)
    (hkeep : ∀ k j, j ≠ k → σ (k + 1) j = σ k j) {k : Nat} (hk : k < bs.length)
    (h : Represents s (staged bs (σ k))) (hl : s.labels = labels) :
    ∃ s', (List.range' ((bs.take k).countP Block.isSite) ((bs[k]).isSite.toNat)).foldlM step s =
        .ok s' ∧ Represents s' (staged bs (σ (k + 1))) ∧ s'.labels = labels := by
  have hb := List.getElem?_eq_getElem hk
  generalize bs[k] = b at hb ⊢
  have hnow := staged_eq hb (fun j _ => rfl : ∀ j, j ≠ k → σ k j = σ k j)
  rw [staged_eq hb (hkeep k)]
  rw [hnow] at h
  cases b with
  | plain id l => exact ⟨s, rfl, h, hl⟩
  | site id high transfer source u stage =>
    have hlen : ((staged bs (σ k)).take k).length = k := by
      rw [List.length_take, length_staged]
      omega
    obtain ⟨s', hs, hrep, hl'⟩ := hstep k s _ _ id high transfer source u stage hb hlen hnow h hl
    rw [take_staged, length_references_staged] at hs
    refine ⟨s', ?_, hrep, hl'⟩
    simp [Block.isSite, hs]

theorem Advances.run (hstep : Advances step bs labels σ)
    (hkeep : ∀ k j, j ≠ k → σ (k + 1) j = σ k j) (h : Represents s (staged bs (σ 0)))
    (hl : s.labels = labels) {k : Nat} (hk : k ≤ bs.length) :
    ∃ s', (List.range ((bs.take k).countP Block.isSite)).foldlM step s = .ok s' ∧
      Represents s' (staged bs (σ k)) ∧ s'.labels = labels := by
  induction k with
  | zero => exact ⟨s, rfl, h, hl⟩
  | succ k ih =>
    obtain ⟨s₁, hrun₁, hrep₁, hl₁⟩ := ih (by omega)
    obtain ⟨s₂, hrun₂, hrep₂, hl₂⟩ := hstep.turn hkeep hk hrep₁ hl₁
    have hcount : (bs.take (k + 1)).countP Block.isSite =
        (bs.take k).countP Block.isSite + (bs[k]).isSite.toNat := by
      rw [List.take_succ_eq_append_getElem hk, List.countP_append, List.countP_singleton]
      cases (bs[k]).isSite <;> rfl
    refine ⟨s₂, ?_, hrep₂, hl₂⟩
    rw [hcount, List.range_eq_range', ← List.range'_append_1, List.foldlM_append,
      ← List.range_eq_range', hrun₁, ok_bind, Nat.zero_add, hrun₂]

/-- A sweep takes a layout from the stages `σ 0` to those that all blocks have after their turn. -/
theorem Advances.sweep (hstep : Advances step bs labels σ)
    (hkeep : ∀ k j, j ≠ k → σ (k + 1) j = σ k j) (h : Represents s (staged bs (σ 0)))
    (hl : s.labels = labels) :
    ∃ s', s.forReferences step = .ok s' ∧ Represents s' (staged bs (σ bs.length)) ∧
      s'.labels = labels := by
  have hsize : s.references.size = (bs.take bs.length).countP Block.isSite := by
    rw [List.take_length, ← length_references_staged bs (σ 0), ← h.references]
    simp
  unfold forReferences
  rw [hsize]
  exact hstep.run hkeep h hl (Nat.le_refl _)

end Sweep

/-! ## Sizes and addresses -/

/-- What a block is to the sizing, if `ids` are the handles of the body. A short form without a
range fits nowhere. -/
def Block.item (ids : List LineId) : Block → Sizing.Item
  | .plain .. => .plain
  | .site _ _ _ _ u _ =>
    match u.load.transfer with
    | none => .load (ids.idxOf u.label.target)
    | some (_, short) =>
      .transfer (ids.idxOf u.label.target) (short.shape.displacementRange?.getD (1, 0)).1
        (short.shape.displacementRange?.getD (1, 0)).2

def items (bs : List Block) : List Sizing.Item := bs.map (Block.item (bs.map Block.id))

def Stage.isShort : Stage → Bool
  | near | settled _ => true
  | loading | loaded _ => false

theorem size_site (ids : List LineId) (id high transfer : LineId) (source : Nat) (u : Use)
    (stage : Stage) : (Block.site id high transfer source u stage).size =
      if stage.isShort then 1
      else (Block.item ids (.site id high transfer source u stage)).size := by
  cases htr : u.load.transfer <;> cases stage <;>
    simp [Block.size, Block.entries, Use.lines, Use.longLines, Use.transferLine, Stage.isShort,
      Block.item, Sizing.Item.size, htr]

theorem lines_of_long (u : Use) (source : Nat) {stage : Stage} (h : stage.isShort = false) :
    ∃ low high, u.lines source stage = u.longLines source low high := by
  cases stage with
  | loading | loaded a => exact ⟨_, _, rfl⟩
  | near | settled v => cases h

/-- The lines of a block that is not short stand one after the other. -/
theorem Represents.position_long {s : Layout} {bs : List Block} (h : Represents s bs) {k : Nat}
    {id high transfer : LineId} {source : Nat} {u : Use} {stage : Stage}
    (hk : bs[k]? = some (.site id high transfer source u stage)) (hlong : stage.isShort = false) :
    s.program.position high = some (Sizing.address (bs.map Block.size) k + 1) ∧
      (u.load.transfer.isSome →
        s.program.position transfer = some (Sizing.address (bs.map Block.size) k + 2)) := by
  have hown : Sizing.address (bs.map Block.size) k =
      ((bs.take k).flatMap Block.entries).length := by
    rw [length_flatMap_entries, List.map_take]
    rfl
  obtain ⟨low, up, hlines⟩ := lines_of_long u source hlong
  rw [split_at hk] at h
  have hentries := h.around.1
  simp only [hlines, Use.longLines, List.zip_cons_cons, List.cons_append] at hentries
  rw [List.append_cons] at hentries
  rw [hown]
  refine ⟨?_, fun hsome => ?_⟩
  · rw [h.valid.position_eq hentries, List.length_append, List.length_singleton]
  · obtain ⟨t, htr⟩ := Option.isSome_iff_exists.1 hsome
    simp only [Use.transferLine, htr, Option.map_some, Option.toList_some, List.zip_cons_cons,
      List.zip_nil_right, List.cons_append, List.nil_append] at hentries
    rw [List.append_cons] at hentries
    rw [h.valid.position_eq hentries]
    simp only [List.length_append, List.length_singleton]

/-- With the stages right, the sizes of the blocks are the sizes of the sizing. -/
theorem map_size_staged {bs : List Block} {sizes : List Nat} {σ : Nat → Stage}
    (hconf : Sizing.Conform (items bs) sizes)
    (hσ : ∀ k, (σ k).isShort = decide (sizes[k]? = some 1)) :
    (staged bs σ).map Block.size = sizes := by
  apply List.ext_getElem?
  intro k
  rw [List.getElem?_map, getElem?_staged]
  cases hk : bs[k]? with
  | none =>
    have hlen : sizes.length = bs.length := by rw [hconf.1, items, List.length_map]
    rw [List.getElem?_eq_none_iff] at hk
    rw [List.getElem?_eq_none (by omega)]
    rfl
  | some b =>
    have hitem : (items bs)[k]? = some (b.item (bs.map Block.id)) := by simp [items, hk]
    have hsize := hconf.2 k _ hitem
    cases b with
    | plain id l =>
      rcases hsize with hsize | ⟨⟨t, l, g, he⟩, -⟩
      · rw [hsize]
        rfl
      · cases he
    | site id high transfer source u stage =>
      simp only [Option.map_some, Block.withStage]
      rw [size_site (bs.map Block.id), hσ k]
      rcases hsize with hsize | ⟨-, hsize⟩
      · by_cases h1 : sizes[k]? = some 1
        · simp [h1]
        · simp only [h1, decide_false, Bool.false_eq_true, if_false]
          rw [hsize]
          rfl
      · simp [hsize]

theorem id_withStage (stage : Stage) (b : Block) : (b.withStage stage).id = b.id := by
  cases b <;> rfl

/-- Every reference is to the line of some block. -/
def Targeted (bs : List Block) : Prop :=
  ∀ id high transfer source u stage, Block.site id high transfer source u stage ∈ bs →
    u.label.target ∈ bs.map Block.id

/-- A line of the body stands where the sizes before it put it. -/
theorem Represents.position_target {s : Layout} {bs : List Block} {σ : Nat → Stage}
    (h : Represents s (staged bs σ)) {id : LineId} (ht : id ∈ bs.map Block.id) :
    s.program.position id = some
      (Sizing.address ((staged bs σ).map Block.size) ((bs.map Block.id).idxOf id)) := by
  have hget : (bs.map Block.id)[(bs.map Block.id).idxOf id]? = some id := List.getElem?_idxOf ht
  rw [List.getElem?_map] at hget
  obtain ⟨b, hb, hid⟩ := Option.map_eq_some_iff.1 hget
  have hstaged : (staged bs σ)[(bs.map Block.id).idxOf id]? =
      some (b.withStage (σ ((bs.map Block.id).idxOf id))) := by
    rw [getElem?_staged, hb]
    rfl
  have hpos := h.position hstaged
  rwa [id_withStage, hid] at hpos

theorem Represents.address_eq {s : Layout} {bs : List Block} {σ : Nat → Stage}
    (h : Represents s (staged bs σ)) {label : Label} (ht : label.target ∈ bs.map Block.id) :
    s.address label = .ok
      (Sizing.address ((staged bs σ).map Block.size) ((bs.map Block.id).idxOf label.target)) := by
  unfold address
  rw [h.position_target ht]

section Phases

variable {bs : List Block} {s : Layout} {labels : Array Label} {A B : List Block}
  {id high transfer : LineId} {source k : Nat} {u : Use} {stage : Stage} {σ : Nat → Stage}

theorem Represents.getElem?_references
    (h : Represents s (A ++ .site id high transfer source u stage :: B)) :
    s.references[(A.filterMap Block.reference?).length]? =
      some ⟨u.label, id, high, u.load.transfer.map fun x => ⟨transfer, x.2⟩, stage.state⟩ := by
  rw [← Array.getElem?_toList, h.around.2]
  simp

/-- The reference of block `k`, with the references of the blocks before it counted. -/
theorem Represents.getElem?_references_staged (h : Represents s (staged bs σ))
    (hk : (staged bs σ)[k]? = some (.site id high transfer source u stage)) :
    s.references[(bs.take k).countP Block.isSite]? =
      some ⟨u.label, id, high, u.load.transfer.map fun x => ⟨transfer, x.2⟩, stage.state⟩ := by
  rw [split_at hk] at h
  have hread := h.getElem?_references
  rwa [take_staged, length_references_staged] at hread

theorem Represents.displacement_low (h : Represents s (staged bs σ))
    (hk : (staged bs σ)[k]? = some (.site id high transfer source u stage))
    (ht : u.label.target ∈ bs.map Block.id) : s.displacement u.label id = .ok
      (Sizing.address ((staged bs σ).map Block.size) ((bs.map Block.id).idxOf u.label.target) -
        Sizing.address ((staged bs σ).map Block.size) k - 1) := by
  have hpos := h.position hk
  unfold displacement
  rw [h.address_eq ht, show s.program.position id = _ from hpos]
  rfl

theorem Represents.displacement_transfer (h : Represents s (staged bs σ))
    (hk : (staged bs σ)[k]? = some (.site id high transfer source u stage))
    (hlong : stage.isShort = false) (htr : u.load.transfer.isSome)
    (ht : u.label.target ∈ bs.map Block.id) : s.displacement u.label transfer = .ok
      (Sizing.reach ((staged bs σ).map Block.size) ((bs.map Block.id).idxOf u.label.target) k) := by
  unfold displacement
  rw [h.address_eq ht, (h.position_long hk hlong).2 htr]
  rfl

/-- The stages of blocks with the given sizes, when the first `n` have got their displacement and
the first `m` the bytes of their address. -/
def stages (items : List Sizing.Item) (sizes : List Nat) (n m k : Nat) : Stage :=
  if sizes[k]? = some 1 then
    if k < n then .settled (Sizing.displacement items sizes k) else .near
  else if k < m then .loaded (Sizing.address sizes (Sizing.targetOf items k)) else .loading

theorem isShort_stages (items : List Sizing.Item) (sizes : List Nat) (n m k : Nat) :
    (stages items sizes n m k).isShort = decide (sizes[k]? = some 1) := by
  unfold stages
  split
  · split <;> simp [Stage.isShort, *]
  · split <;> simp [Stage.isShort, *]

theorem map_size_stages {sizes : List Nat} (h : Sizing.Conform (items bs) sizes) (n m : Nat) :
    (staged bs (stages (items bs) sizes n m)).map Block.size = sizes :=
  map_size_staged h (isShort_stages _ sizes n m)

theorem targetOf_items (hk : bs[k]? = some (.site id high transfer source u stage)) :
    Sizing.targetOf (items bs) k = (bs.map Block.id).idxOf u.label.target := by
  unfold Sizing.targetOf items
  rw [List.getElem?_map, hk]
  cases htr : u.load.transfer <;> simp [Block.item, htr, Sizing.Item.target?]

theorem stages_of_long (items : List Sizing.Item) {sizes : List Nat}
    (hlong : sizes[k]? ≠ some 1) (n : Nat) : stages items sizes n 0 k = .loading := by
  simp [stages, hlong]

/-- To go on to the next block changes the stage of no other block. -/
theorem stages_settled_of_ne (items : List Sizing.Item) (sizes : List Nat) (m : Nat) {j : Nat}
    (hj : j ≠ k) : stages items sizes (k + 1) m j = stages items sizes k m j := by
  have : j < k + 1 ↔ j < k := by omega
  simp only [stages, this]

theorem stages_loaded_of_ne (items : List Sizing.Item) (sizes : List Nat) (n : Nat) {j : Nat}
    (hj : j ≠ k) : stages items sizes n (k + 1) j = stages items sizes n k j := by
  have : j < k + 1 ↔ j < k := by omega
  simp only [stages, this]

theorem long_until_turn (hk : bs[k]? = some (.site id high transfer source u stage)) {n : Nat}
    (hn : n ≤ k) : (Sizing.sizesAfter (items bs) n)[k]? ≠ some 1 := by
  rw [Sizing.getElem?_sizesAfter_of_le (items bs) k n hn, items, List.getElem?_map, hk]
  cases htr : u.load.transfer <;> simp [Block.item, htr, Sizing.Item.size]

/-- A transfer that is tried collapses exactly if the sizing makes it short. -/
theorem relaxReference_spec {sizes : List Nat} (hconf : Sizing.Conform (items bs) sizes)
    (hlong : sizes[k]? ≠ some 1) (hk : bs[k]? = some (.site id high transfer source u stage))
    (ht : u.label.target ∈ bs.map Block.id) (hA : A.length = k)
    (heq : staged bs (stages (items bs) sizes 0 0) =
      A ++ .site id high transfer source u .loading :: B)
    (h : Represents s (A ++ .site id high transfer source u .loading :: B)) :
    ∃ s', s.relaxReference (A.filterMap Block.reference?).length = .ok s' ∧
      s'.labels = s.labels ∧ Represents s' (A ++ .site id high transfer source u
        (stages (items bs) (Sizing.shorten (items bs) sizes k) 0 0 k) :: B) := by
  have hitem : (items bs)[k]? = some (Block.item (bs.map Block.id)
      (.site id high transfer source u stage)) := by simp [items, hk]
  have hsame := stages_of_long (items bs) hlong 0
  have hread := h.getElem?_references
  generalize hi : (bs.map Block.id).idxOf u.label.target = target
  unfold Sizing.shorten
  simp only [relaxReference, hread, hitem, Block.item, hi]
  cases htr : u.load.transfer with
  | none => exact ⟨s, rfl, rfl, by rw [hsame]; exact h⟩
  | some t =>
    obtain ⟨through, short⟩ := t
    have hdisp : s.displacement u.label transfer = .ok (Sizing.reach sizes target k) := by
      have hstaged : (staged bs (stages (items bs) sizes 0 0))[k]? =
          some (.site id high transfer source u .loading) := by rw [heq, ← hA]; simp
      have := (heq ▸ h : Represents s (staged bs _)).displacement_transfer hstaged rfl
        (by rw [htr]; rfl) ht
      rwa [map_size_stages hconf, hi] at this
    simp only [Option.map_some]
    cases hr : short.shape.displacementRange? with
    | none =>
      have hnot : ¬(1 ≤ Sizing.reach sizes target k ∧ Sizing.reach sizes target k ≤ 0) := by omega
      simp only [Option.getD_none, if_neg hnot]
      exact ⟨s, rfl, rfl, by rw [hsame]; exact h⟩
    | some range =>
      obtain ⟨least, greatest⟩ := range
      simp only [Option.getD_some, hdisp, ok_bind, pure_eq_ok]
      split
      · have hlt : k < sizes.length := by
          rw [hconf.1]
          exact (List.getElem?_eq_some_iff.1 hitem).1
        have hnear : stages (items bs) (sizes.set k 1) 0 0 k = .near := by simp [stages, hlt]
        refine ⟨_, rfl, rfl, ?_⟩
        rw [hnear]
        exact represents_collapse h htr
      · exact ⟨s, rfl, rfl, by rw [hsame]; exact h⟩

/-- The try of one reference is one step of the sizing. -/
theorem relaxReference_advances (htarget : Targeted bs) :
    Advances relaxReference bs labels
      fun k => stages (items bs) (Sizing.sizesAfter (items bs) k) 0 0 := by
  intro k s A B id high transfer source u stage hk hA heq hrep hl
  beta_reduce at heq hrep ⊢
  have hlong := long_until_turn hk (Nat.le_refl k)
  rw [stages_of_long _ hlong] at heq hrep
  obtain ⟨s', hs, hl', hrep'⟩ := relaxReference_spec (Sizing.conform_sizesAfter (items bs) k) hlong
    hk (htarget _ _ _ _ _ _ (List.mem_of_getElem? hk)) hA heq hrep
  refine ⟨s', hs, ?_, hl'.trans hl⟩
  rw [Sizing.sizesAfter_succ]
  exact hrep'

theorem stages_succ_of_ne (bs : List Block) {j : Nat} (hj : j ≠ k) :
    stages (items bs) (Sizing.sizesAfter (items bs) (k + 1)) 0 0 j =
      stages (items bs) (Sizing.sizesAfter (items bs) k) 0 0 j := by
  simp only [stages]
  rw [Sizing.sizesAfter_succ, Sizing.getElem?_shorten_of_ne _ _ hj]
  simp

theorem relax_run (htarget : Targeted bs)
    (h : Represents s (staged bs (stages (items bs) (Sizing.sizesAfter (items bs) 0) 0 0)))
    (hl : s.labels = labels) (hk : k ≤ bs.length) :
    ∃ s', (List.range ((bs.take k).countP Block.isSite)).foldlM relaxReference s = .ok s' ∧
      Represents s' (staged bs (stages (items bs) (Sizing.sizesAfter (items bs) k) 0 0)) ∧
      s'.labels = labels :=
  (relaxReference_advances htarget).run (fun _ _ hj => stages_succ_of_ne bs hj) h hl hk

/-- The sweep over the references makes those short that the sizing makes short. -/
theorem relax_sweep (htarget : Targeted bs)
    (h : Represents s (staged bs (stages (items bs) (Sizing.sizesAfter (items bs) 0) 0 0)))
    (hl : s.labels = labels) : ∃ s', s.forReferences relaxReference = .ok s' ∧
      Represents s' (staged bs (stages (items bs) (Sizing.finalSizes (items bs)) 0 0)) ∧
      s'.labels = labels := by
  have hlen : (items bs).length = bs.length := by simp [items]
  rw [Sizing.finalSizes, hlen]
  exact (relaxReference_advances htarget).sweep (fun _ _ hj => stages_succ_of_ne bs hj) h hl

/-- A short form gets its displacement; any other reference stays. -/
theorem settleReference_advances {sizes : List Nat} (hconf : Sizing.Conform (items bs) sizes)
    (htarget : Targeted bs) :
    Advances settleReference bs labels fun k => stages (items bs) sizes k 0 := by
  intro k s A B id high transfer source u stage hk hA heq hrep hl
  beta_reduce at heq hrep ⊢
  have hread := hrep.getElem?_references
  by_cases hshort : sizes[k]? = some 1
  · have hnow : stages (items bs) sizes k 0 k = .near := by simp [stages, hshort]
    have hnext : stages (items bs) sizes (k + 1) 0 k =
        .settled (Sizing.displacement (items bs) sizes k) := by simp [stages, hshort]
    rw [hnow] at hread heq hrep
    have hstaged : (staged bs (stages (items bs) sizes k 0))[k]? =
        some (.site id high transfer source u .near) := by rw [heq, ← hA]; simp
    have hdisp : s.displacement u.label id = .ok (Sizing.displacement (items bs) sizes k) := by
      have := (heq ▸ hrep : Represents s (staged bs _)).displacement_low hstaged
        (htarget _ _ _ _ _ _ (List.mem_of_getElem? hk))
      rwa [map_size_stages hconf, ← targetOf_items hk] at this
    rw [hnext]
    refine ⟨_, ?_, represents_settle hrep _, hl⟩
    simp [settleReference, hread, Stage.state, hdisp]
  · have hnow : ∀ n, stages (items bs) sizes n 0 k = .loading := stages_of_long _ hshort
    rw [hnow] at hread hrep
    refine ⟨s, ?_, by rw [hnow]; exact hrep, hl⟩
    simp [settleReference, hread, Stage.state]

theorem settle_sweep {sizes : List Nat} (hconf : Sizing.Conform (items bs) sizes)
    (htarget : Targeted bs) (h : Represents s (staged bs (stages (items bs) sizes 0 0)))
    (hl : s.labels = labels) : ∃ s', s.forReferences settleReference = .ok s' ∧
      Represents s' (staged bs (stages (items bs) sizes bs.length 0)) ∧ s'.labels = labels :=
  (settleReference_advances hconf htarget).sweep (fun _ _ hj => stages_settled_of_ne _ _ 0 hj) h hl

/-- A reference without a short form gets the bytes of its address; a short form stays. -/
theorem materializeReference_advances {sizes : List Nat} (hconf : Sizing.Conform (items bs) sizes)
    (htarget : Targeted bs) :
    Advances materializeReference bs labels fun k => stages (items bs) sizes bs.length k := by
  intro k s A B id high transfer source u stage hk hA heq hrep hl
  beta_reduce at heq hrep ⊢
  have hread := hrep.getElem?_references
  by_cases hshort : sizes[k]? = some 1
  · have hlt : k < bs.length := (List.getElem?_eq_some_iff.1 hk).1
    have hnow : ∀ m, stages (items bs) sizes bs.length m k =
        .settled (Sizing.displacement (items bs) sizes k) := by simp [stages, hshort, hlt]
    rw [hnow] at hread hrep
    refine ⟨s, ?_, by rw [hnow]; exact hrep, hl⟩
    simp [materializeReference, hread, Stage.state]
  · have hnow : stages (items bs) sizes bs.length k k = .loading := by simp [stages, hshort]
    have hnext : stages (items bs) sizes bs.length (k + 1) k =
        .loaded (Sizing.address sizes (Sizing.targetOf (items bs) k)) := by simp [stages, hshort]
    rw [hnow] at hread heq hrep
    have haddr : s.address u.label =
        .ok (Sizing.address sizes (Sizing.targetOf (items bs) k)) := by
      have := (heq ▸ hrep : Represents s (staged bs _)).address_eq
        (htarget _ _ _ _ _ _ (List.mem_of_getElem? hk))
      rwa [map_size_stages hconf, ← targetOf_items hk] at this
    rw [hnext]
    refine ⟨_, ?_, represents_materialize hrep _, hl⟩
    simp [materializeReference, hread, Stage.state, haddr]

theorem materialize_sweep {sizes : List Nat} (hconf : Sizing.Conform (items bs) sizes)
    (htarget : Targeted bs) (h : Represents s (staged bs (stages (items bs) sizes bs.length 0)))
    (hl : s.labels = labels) : ∃ s', s.materialize = .ok s' ∧
      Represents s' (staged bs (stages (items bs) sizes bs.length bs.length)) ∧
      s'.labels = labels :=
  (materializeReference_advances hconf htarget).sweep
    (fun _ _ hj => stages_loaded_of_ne _ _ bs.length hj) h hl

/-- The blocks when the resolution is over. -/
def finalBlocks (bs : List Block) : List Block :=
  staged bs (stages (items bs) (Sizing.finalSizes (items bs)) bs.length bs.length)

/-- Blocks as they come out of the expansion. -/
def Fresh (bs : List Block) : Prop := ∀ b ∈ bs, b.withStage .loading = b

theorem staged_of_fresh (h : Fresh bs) :
    staged bs (stages (items bs) (Sizing.sizesAfter (items bs) 0) 0 0) = bs := by
  apply List.ext_getElem?
  intro k
  rw [getElem?_staged]
  cases hk : bs[k]? with
  | none => rfl
  | some b =>
    rw [Option.map_some, Option.some.injEq]
    cases b with
    | plain id l => rfl
    | site id high transfer source u stage =>
      rw [stages_of_long _ (long_until_turn hk (Nat.zero_le k))]
      exact h _ (List.mem_of_getElem? hk)

theorem exists_relaxed (hfresh : Fresh bs) (htarget : Targeted bs) (h : Represents s bs)
    (hl : s.labels = labels) : ∃ s', s.relax = .ok s' ∧
      Represents s' (staged bs (stages (items bs) (Sizing.finalSizes (items bs)) bs.length 0)) ∧
      s'.labels = labels := by
  rw [← staged_of_fresh hfresh] at h
  obtain ⟨s₁, hrun₁, h₁, hl₁⟩ := relax_sweep htarget h hl
  obtain ⟨s₂, hrun₂, h₂, hl₂⟩ := settle_sweep (Sizing.conform_sizesAfter ..) htarget h₁ hl₁
  refine ⟨s₂, ?_, h₂, hl₂⟩
  rw [relax, hrun₁, ok_bind, hrun₂]

/-- After expansion nothing fails, and all blocks come to their last stage. -/
theorem exists_final (hfresh : Fresh bs) (htarget : Targeted bs) (h : Represents s bs)
    (hl : s.labels = labels) : ∃ s', s.relax >>= materialize = .ok s' ∧
      Represents s' (finalBlocks bs) ∧ s'.labels = labels := by
  obtain ⟨s₁, hrun₁, h₁, hl₁⟩ := exists_relaxed hfresh htarget h hl
  obtain ⟨s₂, hrun₂, h₂, hl₂⟩ := materialize_sweep (Sizing.conform_sizesAfter ..) htarget h₁ hl₁
  refine ⟨s₂, ?_, h₂, hl₂⟩
  rw [hrun₁, ok_bind, hrun₂]

theorem map_size_finalBlocks (bs : List Block) :
    (finalBlocks bs).map Block.size = Sizing.finalSizes (items bs) :=
  map_size_stages (Sizing.conform_sizesAfter _ _) _ _

theorem length_finalBlocks (bs : List Block) : (finalBlocks bs).length = bs.length :=
  length_staged ..

def finalStage (items : List Sizing.Item) (k : Nat) : Stage :=
  if (Sizing.finalSizes items)[k]? = some 1 then
    .settled (Sizing.displacement items (Sizing.finalSizes items) k)
  else .loaded (Sizing.address (Sizing.finalSizes items) (Sizing.targetOf items k))

theorem getElem?_finalBlocks (bs : List Block) (k : Nat) :
    (finalBlocks bs)[k]? = bs[k]?.map (Block.withStage (finalStage (items bs) k)) := by
  rw [finalBlocks, getElem?_staged]
  by_cases hk : k < bs.length
  · simp only [stages, finalStage, hk, if_true]
  · rw [List.getElem?_eq_none (Nat.le_of_not_lt hk)]
    rfl

/-- What does not depend on the stage of a block is the same in the end. -/
theorem map_finalBlocks {α : Type} {f : Block → α} (hf : ∀ stage b, f (b.withStage stage) = f b)
    (bs : List Block) : (finalBlocks bs).map f = bs.map f := by
  apply List.ext_getElem?
  intro k
  rw [List.getElem?_map, List.getElem?_map, getElem?_finalBlocks, Option.map_map]
  exact congrArg (Option.map · _) (funext (hf _))

end Phases

end CompactRisc.Layout
