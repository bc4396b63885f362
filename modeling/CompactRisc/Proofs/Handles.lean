import CompactRisc.Proofs.Edits
import CompactRisc.Proofs.Layout.Soundness
import CompactRisc.Proofs.Sweep
import CompactRisc.Proofs.Violations

/-!
# The handles that a resolution holds

While the program is edited under them, labels and references keep their handles. This module says
what stays true of the handles from one turn of a loop to the next. It follows that nothing is ever
missing that the resolution looks up once the labels have been read.

Results:
* `Turn.safe`: every turn of every loop keeps the layout sound, moves references on in one way only,
  and finds each line, place and token that it names.
* `Program.resolve_layout_fault`: the only fault of layout is a label at the end of the program.
* `Program.resolve_keeps_handles`: what is true of the handles through the whole resolution.
-/
namespace CompactRisc

open Layout

/-- A reference can go from one state to the other: it only ever leaves the state that it came in
with. -/
def Reference.State.Leads (a b : Reference.State) : Prop :=
  b = a ∨ a = .expanded ∧ (b = .relaxed ∨ b = .materialized)

/-- A reference at a later time. -/
def Reference.Becomes (x y : Reference) : Prop :=
  y = { x with state := y.state } ∧ x.state.Leads y.state

theorem Reference.Becomes.refl (x : Reference) : x.Becomes x := ⟨rfl, .inl rfl⟩

namespace Layout

/-! ## From one turn to the next -/

/-- A layout at a later time. References stay at their index, and new ones come in expanded. -/
structure Follows (s s' : Layout) : Prop where
  labels : s'.labels = s.labels
  references : ∃ kept new, s'.references.toList = kept ++ new ∧
    List.Forall₂ Reference.Becomes s.references.toList kept ∧ ∀ x ∈ new, x.state = .expanded

def loadEdits (id : LineId) (pos source : Nat) (label : Label) (load : AddressLoad) : List Edit :=
  .modify id ({ · with tokens := lowTokens load.register label.name }) ::
    .insert (pos + 1) ⟨highTokens load.register label.name, source⟩ ::
      (load.transfer.map fun t =>
        Edit.insert (pos + 2) ⟨[t.1.mnemonic, load.register.name], source⟩).toList

def collapseEdits (x : Reference) (t : Transfer) : List Edit :=
  [.removeId t.line, .removeId x.high,
    .modify x.low ({ · with tokens := [t.short.mnemonic, x.label.name] })]

def materializeEdits (x : Reference) (a : Nat) : List Edit :=
  [.modify x.low (·.setToken 2 (lowByte a)), .modify x.high (·.setToken 2 (highByte a))]

/-- A reference has no short form that reaches its label. -/
def Stays (s : Layout) (x : Reference) : Prop :=
  ∀ t ∈ x.transfer, ∀ range ∈ t.short.shape.displacementRange?,
    ∃ v, s.displacement x.label t.line = .ok v ∧ ¬(range.1 ≤ v ∧ v ≤ range.2)

/-- What a turn of a loop is about: a line, or the reference of an index. -/
inductive Job where
  | expand (id : LineId)
  | relax (n : Nat)
  | settle (n : Nat)
  | materialize (n : Nat)

/-- What a job does. The line or the reference that it is about is there. Either it is one that the
job passes over, or each line, place and token that the edits name is there. -/
inductive InBounds (d : Dialect) (s s' : Layout) : Job → Prop
  | plain {id : LineId} {pos : Nat} (place : s.program.position id = some pos)
      (none : Mention.find d s.labels (s.program.line id) = .ok none) (same : s' = s) :
      InBounds d s s' (.expand id)
  | expand {id : LineId} {pos : Nat} {m : Mention} {load : AddressLoad} {log : List Edit.Answer}
      (place : s.program.position id = some pos)
      (mention : Mention.find d s.labels (s.program.line id) = .ok (some m))
      (use : m.load d (s.program.line id) = .ok load)
      (edits : s.program.editAll? (loadEdits id pos (s.program.line id).source m.label load) =
        some (log, s'.program)) : InBounds d s s' (.expand id)
  | far {n : Nat} {x : Reference} (reference : s.references[n]? = some x) (stays : s.Stays x)
      (same : s' = s) : InBounds d s s' (.relax n)
  /-- The two lines that go out stand right after the one that stays. -/
  | collapse {n : Nat} {x : Reference} {t : Transfer} {q : Nat}
      (reference : s.references[n]? = some x) (transfer : x.transfer = some t)
      (low : s.program.position x.low = some q)
      (edits : s.program.editAll? (collapseEdits x t) =
        some ([.stood (some (q + 2)), .stood (some (q + 1)), .done], s'.program)) :
      InBounds d s s' (.relax n)
  | long {n : Nat} {x : Reference} (reference : s.references[n]? = some x)
      (state : x.state ≠ .relaxed) (same : s' = s) : InBounds d s s' (.settle n)
  | settle {n : Nat} {x : Reference} {v : Int} (reference : s.references[n]? = some x)
      (state : x.state = .relaxed) (token : 1 < (s.program.line x.low).tokens.length)
      (edits : s.program.editAll? [.modify x.low (·.setToken 1 (Text.decimal v))] =
        some ([.done], s'.program)) : InBounds d s s' (.settle n)
  | short {n : Nat} {x : Reference} (reference : s.references[n]? = some x)
      (state : x.state ≠ .expanded) (same : s' = s) : InBounds d s s' (.materialize n)
  | materialize {n : Nat} {x : Reference} {a : Nat} (reference : s.references[n]? = some x)
      (state : x.state = .expanded) (low : 2 < (s.program.line x.low).tokens.length)
      (high : 2 < (s.program.line x.high).tokens.length)
      (edits : s.program.editAll? (materializeEdits x a) = some ([.done, .done], s'.program)) :
      InBounds d s s' (.materialize n)

section Steps

variable {s s' : Layout} {n : Nat} {x : Reference}

theorem expandLine_cases {d : Dialect} {id : LineId} {pos : Nat}
    (hpos : s.program.position id = some pos) (h : s.expandLine d id = .ok s') :
    (Mention.find d s.labels (s.program.line id) = .ok none ∧ s' = s) ∨
      ∃ m load, Mention.find d s.labels (s.program.line id) = .ok (some m) ∧
        m.load d (s.program.line id) = .ok load ∧
        s' = s.insertLoad id pos (s.program.line id).source m.label load := by
  obtain ⟨found, hfound, h⟩ := bind_eq_ok.1 h
  rw [hpos] at h
  cases found with
  | none => exact .inl ⟨hfound, (Except.ok.inj h).symm⟩
  | some m =>
    obtain ⟨load, hload, h⟩ := bind_eq_ok.1 h
    exact .inr ⟨m, load, hfound, hload, (Except.ok.inj h).symm⟩

theorem relaxReference_cases (hx : s.references[n]? = some x) (h : s.relaxReference n = .ok s') :
    (s.Stays x ∧ s' = s) ∨ ∃ t, x.transfer = some t ∧ s' = s.collapse n x t := by
  rw [relaxReference, hx] at h
  dsimp only at h
  cases ht : x.transfer with
  | none =>
    rw [ht] at h
    exact .inl ⟨by simp [Stays, ht], (Except.ok.inj h).symm⟩
  | some t =>
    rw [ht] at h
    dsimp only at h
    split at h
    · rename_i hnone
      exact .inl ⟨by simp [Stays, ht, hnone], (Except.ok.inj h).symm⟩
    · rename_i least greatest hrange
      obtain ⟨v, hv, h⟩ := bind_eq_ok.1 h
      split at h
      · exact .inr ⟨t, rfl, (Except.ok.inj h).symm⟩
      · rename_i hout
        refine .inl ⟨?_, (Except.ok.inj h).symm⟩
        rintro t' ht' range hrange'
        cases ht.symm.trans ht'
        cases hrange.symm.trans hrange'
        exact ⟨v, hv, hout⟩

theorem settleReference_cases (hx : s.references[n]? = some x) (h : s.settleReference n = .ok s') :
    (x.state ≠ .relaxed ∧ s' = s) ∨ x.state = .relaxed ∧
      ∃ v, s' = s.edit (·.modify x.low (·.setToken 1 (Text.decimal v))) := by
  rw [settleReference, hx] at h
  dsimp only at h
  split at h
  · rename_i hstate
    obtain ⟨v, -, h⟩ := bind_eq_ok.1 h
    exact .inr ⟨hstate, v, (Except.ok.inj h).symm⟩
  · rename_i hstate
    exact .inl ⟨hstate, (Except.ok.inj h).symm⟩

theorem materializeReference_cases (hx : s.references[n]? = some x)
    (h : s.materializeReference n = .ok s') :
    (x.state ≠ .expanded ∧ s' = s) ∨ x.state = .expanded ∧
      ∃ a, s' = (s.setState n .materialized).edit fun program =>
        (program.modify x.low (·.setToken 2 (lowByte a))).modify x.high
          (·.setToken 2 (highByte a)) := by
  rw [materializeReference, hx] at h
  dsimp only at h
  split at h
  · rename_i hstate
    obtain ⟨a, -, h⟩ := bind_eq_ok.1 h
    exact .inr ⟨hstate, a, (Except.ok.inj h).symm⟩
  · rename_i hstate
    exact .inl ⟨hstate, (Except.ok.inj h).symm⟩

theorem insertLoad_program (s : Layout) (id : LineId) (pos source : Nat) (u : Use) :
    (s.insertLoad id pos source u.label u.load).program =
      u.load.transfer.elim (withLoad s.program id pos source u) fun t =>
        (withLoad s.program id pos source u).insert (pos + 2)
          ⟨[t.1.mnemonic, u.load.register.name], source⟩ := by
  cases htr : u.load.transfer with
  | none => rw [insertLoad_of_move s id pos source htr, Option.elim_none]
  | some t => rw [insertLoad_of_transfer s id pos source htr, Option.elim_some]

theorem editAll?_loadEdits (hp : s.program.Valid) {id : LineId} {pos : Nat}
    (hpos : s.program.position id = some pos) (source : Nat) (u : Use) : ∃ log,
      s.program.editAll? (loadEdits id pos source u.label u.load) =
        some (log, (s.insertLoad id pos source u.label u.load).program) := by
  have hlt := hp.lt_size_of_position hpos
  have hlow := Program.edit?_modify (hp.lt_nextId_of_position hpos)
    ({ · with tokens := lowTokens u.load.register u.label.name })
  have hplace : pos + 1 ≤ (s.program.modify id
      ({ · with tokens := lowTokens u.load.register u.label.name })).size := hlt
  have hhigh := Program.edit?_insert hplace ⟨highTokens u.load.register u.label.name, source⟩
  rw [insertLoad_program, loadEdits]
  cases htr : u.load.transfer with
  | none => exact ⟨_, Program.editAll?_of_edit? hlow (Program.editAll?_of_edit? hhigh rfl)⟩
  | some t =>
    have hnext : pos + 2 ≤ (withLoad s.program id pos source u).size := by
      rw [withLoad, Program.size_insert hplace]
      exact Nat.succ_le_succ hplace
    have hthird := Program.edit?_insert hnext ⟨[t.1.mnemonic, u.load.register.name], source⟩
    exact ⟨_, Program.editAll?_of_edit? hlow
      (Program.editAll?_of_edit? hhigh (Program.editAll?_of_edit? hthird rfl))⟩

theorem insertLoad_references (s : Layout) (id : LineId) (pos source : Nat) (u : Use) :
    ∃ x : Reference, x.state = .expanded ∧
      (s.insertLoad id pos source u.label u.load).references = s.references.push x := by
  cases htr : u.load.transfer with
  | none => exact ⟨_, rfl, by rw [insertLoad_of_move s id pos source htr]⟩
  | some t => exact ⟨_, rfl, by rw [insertLoad_of_transfer s id pos source htr]⟩

theorem follows_expandLine {d : Dialect} {id : LineId} {pos : Nat}
    (hpos : s.program.position id = some pos) (h : s.expandLine d id = .ok s') : s.Follows s' := by
  rcases expandLine_cases hpos h with ⟨-, rfl⟩ | ⟨m, load, -, -, rfl⟩
  · exact ⟨rfl, s'.references.toList, [], (List.append_nil _).symm,
      List.forall₂_same.2 fun x _ => .refl x, by simp⟩
  · obtain ⟨x, hstate, hpush⟩ :=
      insertLoad_references s id pos (s.program.line id).source ⟨m.label, load⟩
    refine ⟨insertLoad_labels s id pos _ ⟨m.label, load⟩, s.references.toList, [x], ?_,
      List.forall₂_same.2 fun x _ => .refl x, by simpa using hstate⟩
    rw [hpush, Array.toList_push]

theorem inBounds_expand {d : Dialect} {id : LineId} {pos : Nat} (hs : s.program.Valid)
    (hpos : s.program.position id = some pos) (h : s.expandLine d id = .ok s') :
    s.InBounds d s' (.expand id) := by
  rcases expandLine_cases hpos h with ⟨hnone, hsame⟩ | ⟨m, load, hfound, hload, rfl⟩
  · exact .plain hpos hnone hsame
  obtain ⟨log, hedits⟩ := editAll?_loadEdits hs hpos (s.program.line id).source ⟨m.label, load⟩
  exact .expand hpos hfound hload hedits

/-- The lines that a collapse takes out and the one that it changes are there. -/
theorem Sound.inBounds_relax (hs : s.Sound) (d : Dialect) (hx : s.references[n]? = some x)
    (hstate : x.state = .expanded) (h : s.relaxReference n = .ok s') :
    s.InBounds d s' (.relax n) := by
  rcases relaxReference_cases hx h with ⟨hstays, hsame⟩ | ⟨t, ht, rfl⟩
  · exact .far hx hstays hsame
  cases hs.placed x (Array.mem_of_getElem? hx) with
  | short hshort => cases hshort.symm.trans hstate
  | long _ hlow hhigh htransfer =>
    have hthird := htransfer t ht
    have hkept := Program.position_removeId_of_lt hs.valid hhigh hthird (Nat.lt_succ_self _)
    have hlowId : x.low < ((s.program.removeId t.line).removeId x.high).nextId := by
      rw [Program.nextId_removeId, Program.nextId_removeId]
      exact hs.valid.lt_nextId_of_position hlow
    exact .collapse hx ht hlow (Program.editAll?_of_edit? (Program.edit?_removeId hthird)
      (Program.editAll?_of_edit? (Program.edit?_removeId hkept)
        (Program.editAll?_of_edit? (Program.edit?_modify hlowId _) rfl)))

theorem Sound.inBounds_settle (hs : s.Sound) (d : Dialect) (hx : s.references[n]? = some x)
    (h : s.settleReference n = .ok s') : s.InBounds d s' (.settle n) := by
  rcases settleReference_cases hx h with ⟨hstate, hsame⟩ | ⟨hstate, v, rfl⟩
  · exact .long hx hstate hsame
  cases hs.placed x (Array.mem_of_getElem? hx) with
  | long hlong => exact absurd hstate hlong
  | short _ hlow _ _ htokens =>
    refine .settle (v := v) hx hstate (by omega) (Program.editAll?_of_edit? ?_ rfl)
    exact Program.edit?_modify (hs.valid.lt_nextId_of_position hlow) _

theorem Sound.inBounds_materialize (hs : s.Sound) (d : Dialect) (hx : s.references[n]? = some x)
    (h : s.materializeReference n = .ok s') : s.InBounds d s' (.materialize n) := by
  rcases materializeReference_cases hx h with ⟨hstate, hsame⟩ | ⟨hstate, a, rfl⟩
  · exact .short hx hstate hsame
  cases hs.placed x (Array.mem_of_getElem? hx) with
  | short hshort => cases hshort.symm.trans hstate
  | long _ hlow hhigh _ hlowTokens hhighTokens =>
    refine .materialize (a := a) hx hstate (by omega) (by omega)
      (Program.editAll?_of_edit? (Program.edit?_modify ?_ _)
        (Program.editAll?_of_edit? (Program.edit?_modify ?_ _) rfl))
    · exact hs.valid.lt_nextId_of_position hlow
    · rw [Program.nextId_modify]
      exact hs.valid.lt_nextId_of_position hhigh

end Steps

/-! ## Turns of the loops -/

/-- Going through `all` from the layout `start` on, the turn of `a` takes `s` to `s'`. -/
def TurnOf {α : Type} (step : Layout → α → Except Fault Layout) (all : List α)
    (start s s' : Layout) (a : α) : Prop :=
  ∃ done rest, all = done ++ a :: rest ∧ done.foldlM step start = .ok s ∧ step s a = .ok s'

/-- A turn of one of the loops that take a program to its resolution. -/
inductive Turn (d : Dialect) (p : Program) (s s' : Layout) : Job → Prop
  | expand {start : Layout} {id : LineId} (reached : Layout.ofProgram d p = .ok start)
      (turn : TurnOf (expandLine d) start.program.ids start s s' id) : Turn d p s s' (.expand id)
  | relax {start : Layout} {n : Nat}
      (reached : Layout.ofProgram d p >>= Layout.expand d = .ok start)
      (turn : TurnOf relaxReference (List.range start.references.size) start s s' n) :
      Turn d p s s' (.relax n)
  | settle {expanded start : Layout} {n : Nat}
      (reached : Layout.ofProgram d p >>= Layout.expand d = .ok expanded)
      (relaxed : expanded.forReferences relaxReference = .ok start)
      (turn : TurnOf settleReference (List.range start.references.size) start s s' n) :
      Turn d p s s' (.settle n)
  | materialize {expanded start : Layout} {n : Nat}
      (reached : Layout.ofProgram d p >>= Layout.expand d = .ok expanded)
      (relaxed : expanded.relax = .ok start)
      (turn : TurnOf materializeReference (List.range start.references.size) start s s' n) :
      Turn d p s s' (.materialize n)

theorem turnOf_range {step : Layout → Nat → Except Fault Layout} {size n : Nat}
    {start s s' : Layout} (h : TurnOf step (List.range size) start s s' n) :
    n < size ∧ (List.range n).foldlM step start = .ok s ∧ step s n = .ok s' := by
  obtain ⟨done, rest, hall, hrun, hs'⟩ := h
  have hlen : done.length < size := by
    have := congrArg List.length hall
    simp only [List.length_range, List.length_append, List.length_cons] at this
    omega
  obtain rfl : n = done.length := by
    have := congrArg (·[done.length]?) hall
    simpa [hlen] using this.symm
  have hdone : done = List.range done.length := by
    have := congrArg (List.take done.length) hall
    simpa [List.take_range, Nat.min_eq_left hlen.le] using this.symm
  exact ⟨hlen, hdone ▸ hrun, hs'⟩

section Sweep

variable {step : Layout → Nat → Except Fault Layout} {bs : List Block} {labels : Array Label}
  {start s s' : Layout} {n : Nat}

/-- Every turn of a sweep is the turn of some block. -/
theorem Advances.at_turn {σ : Nat → Nat → Stage} (hstep : Advances step bs labels σ)
    (hkeep : ∀ k j, j ≠ k → σ (k + 1) j = σ k j) (h : Represents start (staged bs (σ 0)))
    (hl : start.labels = labels)
    (hturn : TurnOf step (List.range start.references.size) start s s' n) :
    ∃ (k : Nat) (b : Block), bs[k]? = some b ∧ b.isSite = true ∧
      (bs.take k).countP Block.isSite = n ∧ step s n = .ok s' ∧
      (Represents s (staged bs (σ k)) ∧ s.labels = labels) ∧
      Represents s' (staged bs (σ (k + 1))) ∧ s'.labels = labels := by
  obtain ⟨hn, hrun, hs'⟩ := turnOf_range hturn
  -- the block whose reference has the index `n`
  obtain ⟨x, hx⟩ : ∃ x, start.references.toList[n]? = some x := ⟨_, List.getElem?_eq_getElem hn⟩
  rw [h.references] at hx
  obtain ⟨k, b, hk, hb, hcount⟩ := exists_getElem?_of_filterMap hx
  rw [take_staged, length_references_staged] at hcount
  rw [getElem?_staged] at hk
  obtain ⟨b₀, hk₀, rfl⟩ := Option.map_eq_some_iff.1 hk
  have hsite : b₀.isSite = true := by
    cases b₀ with
    | plain id l => cases hb
    | site => rfl
  obtain ⟨hlt, hget⟩ := List.getElem?_eq_some_iff.1 hk₀
  obtain ⟨s₁, hrun₁, hrep₁, hl₁⟩ := hstep.run hkeep h hl hlt.le
  rw [hcount] at hrun₁
  cases hrun₁.symm.trans hrun
  obtain ⟨s₂, hrun₂, hrep₂, hl₂⟩ := hstep.turn hkeep hlt hrep₁ hl₁
  obtain rfl : s' = s₂ := by simpa [hget, hsite, hcount, hs'] using hrun₂
  exact ⟨k, b₀, hk₀, hsite, hcount, hs', ⟨hrep₁, hl₁⟩, hrep₂, hl₂⟩

theorem Represents.follows {σ σ' : Nat → Stage} (h : Represents s (staged bs σ))
    (h' : Represents s' (staged bs σ')) (hl : s'.labels = s.labels)
    (hσ : ∀ (k : Nat) (b : Block), bs[k]? = some b → b.isSite = true →
      (σ k).state.Leads (σ' k).state) : s.Follows s' := by
  refine ⟨hl, s'.references.toList, [], (List.append_nil _).symm, ?_, by simp⟩
  rw [h.references, h'.references]
  have hblocks : List.Forall₂
      (fun b b' => Option.Rel Reference.Becomes (Block.reference? b) (Block.reference? b'))
      (staged bs σ) (staged bs σ') := by
    rw [List.forall₂_iff_get]
    refine ⟨by simp [length_staged], fun k hk hk' => ?_⟩
    have hlt : k < bs.length := length_staged bs σ ▸ hk
    have hb := hσ k _ (List.getElem?_eq_getElem hlt)
    simp only [staged, List.get_eq_getElem, List.getElem_mapIdx]
    cases hblock : bs[k] with
    | plain id l => exact .none
    | site id high transfer source u stage => exact .some ⟨rfl, hb (by rw [hblock]; rfl)⟩
  exact List.rel_filterMap (fun _ _ hb => hb) hblocks

theorem anchored_staged (h : Anchored labels bs) (σ : Nat → Stage) :
    Anchored labels (staged bs σ) := by
  refine ⟨fun label hlabel => ?_, fun b hb x hx => ?_⟩
  · obtain ⟨b, hb, hid⟩ := List.mem_map.1 (h.target label hlabel)
    obtain ⟨k, hk⟩ := List.getElem?_of_mem hb
    have hstaged : (staged bs σ)[k]? = some (b.withStage (σ k)) := by
      rw [getElem?_staged, hk, Option.map_some]
    rw [← hid, ← id_withStage (σ k)]
    exact List.mem_map_of_mem (List.mem_of_getElem? hstaged)
  · obtain ⟨k, hk⟩ := List.getElem?_of_mem hb
    rw [getElem?_staged] at hk
    obtain ⟨b₀, hk₀, rfl⟩ := Option.map_eq_some_iff.1 hk
    cases b₀ with
    | plain id l => cases hx
    | site id high transfer source u stage =>
      have hlabel := h.label _ (List.mem_of_getElem? hk₀) _ rfl
      cases hx
      exact hlabel

/-- A turn of a sweep keeps the handles good and takes one reference on, whose state is the one that
its block has before its turn. -/
theorem Advances.turn_safe {σ : Nat → Nat → Stage} (hstep : Advances step bs labels σ)
    (hkeep : ∀ k j, j ≠ k → σ (k + 1) j = σ k j) (h : Represents start (staged bs (σ 0)))
    (hl : start.labels = labels) (hbs : Anchored labels bs)
    (hown : ∀ (k : Nat) (b : Block), bs[k]? = some b → b.isSite = true →
      (σ k k).state.Leads (σ (k + 1) k).state)
    (hturn : TurnOf step (List.range start.references.size) start s s' n) :
    s.Sound ∧ s'.Sound ∧ s.Follows s' ∧ step s n = .ok s' ∧
      ∃ (k : Nat) (b : Block) (x : Reference), bs[k]? = some b ∧ b.isSite = true ∧
        s.references[n]? = some x ∧ x.state = (σ k k).state := by
  obtain ⟨k, b, hk, hsite, rfl, hs', ⟨hrep, hl₁⟩, hrep', hl₂⟩ := hstep.at_turn hkeep h hl hturn
  refine ⟨hrep.sound (hl₁ ▸ anchored_staged hbs _), hrep'.sound (hl₂ ▸ anchored_staged hbs _),
    hrep.follows hrep' (hl₂.trans hl₁.symm) fun j b' hj hsite' => ?_, hs', ?_⟩
  · by_cases hjk : j = k
    · subst hjk
      exact hown j b' hj hsite'
    · rw [hkeep k j hjk]
      exact .inl rfl
  · cases b with
    | plain id l => cases hsite
    | site id high transfer source u stage =>
      have hstaged : (staged bs (σ k))[k]? =
          some (.site id high transfer source u (σ k k)) := by
        rw [getElem?_staged, hk]
        rfl
      exact ⟨k, _, _, hk, hsite, hrep.getElem?_references_staged hstaged, rfl⟩

end Sweep

/-- The labels go together with blocks of which some have not been looked at. -/
theorem anchored_of_expands {d : Dialect} {labels : Array Label}
    {now later : List (LineId × Line)} {bs : List Block}
    (h : List.Forall₂ (Expands d labels) now bs)
    (hin : ∀ label ∈ labels, label.target ∈ (now ++ later).map Prod.fst) :
    Anchored labels (bs ++ plainBlocks later) := by
  have hids : (bs ++ plainBlocks later).map Block.id = (now ++ later).map Prod.fst := by
    rw [List.map_append, List.map_append, map_id_of_expands h, plainBlocks, List.map_map]
    rfl
  refine ⟨fun label hlabel => hids ▸ hin label hlabel, fun b hb x hx => ?_⟩
  rcases List.mem_append.1 hb with hb | hb
  · obtain ⟨e, -, he⟩ := exists_left_of_forall₂ h hb
    cases he with
    | plain => cases hx
    | site hu =>
      cases hx
      exact Array.mem_toList_iff.1 hu.mem
  · obtain ⟨e, -, rfl⟩ := List.mem_map.1 hb
    cases hx

theorem expand_turn {d : Dialect} {p : Program} (hp : p.Valid) {labels : Array Label}
    (hfirst : ∀ l ∈ p.lines, d.isLabel l.first = false)
    (hin : ∀ label ∈ labels, label.target ∈ p.ids) {s s' : Layout} {id : LineId}
    (h : TurnOf (expandLine d) p.ids ⟨p, labels, #[]⟩ s s' id) :
    s.Sound ∧ s'.Sound ∧ s.Follows s' ∧ s.InBounds d s' (.expand id) := by
  obtain ⟨done, rest, hall, hrun, hs'⟩ := h
  rw [Program.ids_eq_map_entries] at hall hin
  obtain ⟨now, tail, hentries, rfl, htail⟩ := List.map_eq_append_iff.1 hall
  obtain ⟨⟨id, l⟩, later, rfl, rfl, rfl⟩ := List.map_eq_cons_iff.1 htail
  have hbody : ∀ e ∈ p.entries, d.isLabel e.2.first = false := fun e he => hfirst _ (by
    rw [Program.lines_eq_map_entries]
    exact List.mem_map_of_mem he)
  rw [hentries] at hbody hin
  have hstart : Represents ⟨p, labels, #[]⟩ ([] ++ plainBlocks (now ++ (id, l) :: later)) := by
    rw [← hentries]
    exact represents_plainBlocks hp labels
  have hnow := expand_run d hstart rfl fun e he => hbody e (List.mem_append_left _ he)
  cases hm : now.mapM (fun e => e.2.use d labels) with
  | error f =>
    rw [hm] at hnow
    cases hnow.symm.trans hrun
  | ok uses =>
    rw [hm] at hnow
    obtain ⟨s₁, bs, hs₁, hrep, hl, hbs⟩ := hnow
    cases hs₁.symm.trans hrun
    rw [List.nil_append] at hrep
    have hsound := hrep.sound (hl ▸ anchored_of_expands hbs hin)
    have hstep := expandLine_spec hrep hl (hbody (id, l) (by simp))
    have hpos := hrep.position (k := bs.length) (b := .plain id l) (by simp [plainBlocks])
    refine ⟨hsound, ?_, follows_expandLine hpos hs', inBounds_expand hsound.valid hpos hs'⟩
    cases hu : l.use d labels with
    | error f =>
      rw [hu] at hstep
      cases hstep.symm.trans hs'
    | ok u =>
      rw [hu] at hstep
      obtain ⟨s₂, b, hs₂, hrep₂, hl₂, hb⟩ := hstep
      cases hs₂.symm.trans hs'
      refine hrep₂.sound (hl₂ ▸ anchored_of_expands
        (List.rel_append hbs (.cons hb .nil)) fun label hlabel => ?_)
      simpa using hin label hlabel

theorem anchored_of_labels {d : Dialect} {p : Program} {labels : Array Label} {bs : List Block}
    (hlabels : Label.ofProgram d p = .ok labels)
    (hbs : List.Forall₂ (Expands d labels) (Label.strip d p).entries bs) :
    Anchored labels bs := by
  have hin : ∀ label ∈ labels, label.target ∈ ((Label.strip d p).entries ++ []).map Prod.fst := by
    intro label hlabel
    rw [List.append_nil, ← Program.ids_eq_map_entries]
    exact Label.target_mem hlabels label (Array.mem_toList_iff.2 hlabel)
  simpa [plainBlocks] using anchored_of_expands hbs hin

theorem leads_of_expanded (a : Reference.State) : Reference.State.expanded.Leads a := by
  cases a <;> simp [Reference.State.Leads]

theorem leads_settled (items : List Sizing.Item) (sizes : List Nat) (n m k : Nat) :
    (stages items sizes n m k).state.Leads (stages items sizes (n + 1) m k).state := by
  refine .inl ?_
  unfold stages
  split
  · split <;> split <;> rfl
  · rfl

theorem leads_loaded (items : List Sizing.Item) (sizes : List Nat) (n k : Nat) :
    (stages items sizes n k k).state.Leads (stages items sizes n (k + 1) k).state := by
  unfold stages
  split
  · exact .inl rfl
  · rw [if_neg (Nat.lt_irrefl k)]
    exact leads_of_expanded _

/-- Every turn of every loop keeps the handles good, moves references on only in the one way, and
finds what it looks for. -/
theorem Turn.safe {d : Dialect} {p : Program} (hp : p.Valid) {s s' : Layout} {job : Job}
    (h : Turn d p s s' job) : s.Sound ∧ s'.Sound ∧ s.Follows s' ∧ s.InBounds d s' job := by
  cases h with
  | expand reached turn =>
    obtain ⟨labels, hlabels, hstart⟩ := bind_eq_ok.1 reached
    cases hstart
    refine expand_turn (Program.valid_retain hp _) (fun l hl => ?_)
      (fun label hl => Label.target_mem hlabels label (Array.mem_toList_iff.2 hl)) turn
    exact body_not_label (Label.strip_lines d p ▸ hl)
  | relax reached turn =>
    obtain ⟨labels, bs, hlabels, hrep, hl, hbs⟩ := Program.expanded_from hp reached
    rw [← staged_of_fresh (fresh_of_expands hbs)] at hrep
    -- until its turn is over a reference is expanded
    have hbefore : ∀ (k : Nat) (b : Block), bs[k]? = some b → b.isSite = true →
        (stages (items bs) (Sizing.sizesAfter (items bs) k) 0 0 k).state = .expanded := by
      intro k b hk hsite
      cases b with
      | plain id l => cases hsite
      | site => rw [stages_of_long _ (long_until_turn hk (Nat.le_refl k)), Stage.state]
    obtain ⟨hs, hs', hfollows, hstep, k, b, x, hk, hsite, hx, hstate⟩ :=
      (relaxReference_advances (targeted_of_labels hlabels hbs)).turn_safe
        (fun _ _ hj => stages_succ_of_ne bs hj) hrep hl (anchored_of_labels hlabels hbs)
        (fun k b hk hsite => by rw [hbefore k b hk hsite]; exact leads_of_expanded _) turn
    exact ⟨hs, hs', hfollows,
      hs.inBounds_relax d hx (hstate.trans (hbefore k b hk hsite)) hstep⟩
  | settle reached relaxed turn =>
    obtain ⟨labels, bs, hlabels, hrep, hl, hbs⟩ := Program.expanded_from hp reached
    have htarget := targeted_of_labels hlabels hbs
    rw [← staged_of_fresh (fresh_of_expands hbs)] at hrep
    obtain ⟨start, hstart, hrep, hl⟩ := relax_sweep htarget hrep hl
    cases hstart.symm.trans relaxed
    obtain ⟨hs, hs', hfollows, hstep, -, -, x, -, -, hx, -⟩ :=
      (settleReference_advances (Sizing.conform_sizesAfter ..) htarget).turn_safe
        (fun _ _ hj => stages_settled_of_ne _ _ 0 hj) hrep hl (anchored_of_labels hlabels hbs)
        (fun k _ _ _ => leads_settled _ _ k 0 k) turn
    exact ⟨hs, hs', hfollows, hs.inBounds_settle d hx hstep⟩
  | materialize reached relaxed turn =>
    obtain ⟨labels, bs, hlabels, hrep, hl, hbs⟩ := Program.expanded_from hp reached
    have htarget := targeted_of_labels hlabels hbs
    obtain ⟨start, hstart, hrep, hl⟩ := exists_relaxed (fresh_of_expands hbs) htarget hrep hl
    cases hstart.symm.trans relaxed
    obtain ⟨hs, hs', hfollows, hstep, -, -, x, -, -, hx, -⟩ :=
      (materializeReference_advances (Sizing.conform_sizesAfter ..) htarget).turn_safe
        (fun _ _ hj => stages_loaded_of_ne _ _ bs.length hj) hrep hl
        (anchored_of_labels hlabels hbs) (fun k _ _ _ => leads_loaded _ _ bs.length k) turn
    exact ⟨hs, hs', hfollows, hs.inBounds_materialize d hx hstep⟩

end Layout

/-! ## The whole run -/

/-- The tokens that the reading of a mention names are on the line: the one of the mention, and the
destination of a move. -/
def Mention.InBounds (labels : Array Label) (l : Line) (m : Mention) : Prop :=
  m.token < l.tokens.length ∧ m.label ∈ labels ∧
    ∀ i, m.instruction l = .ok i → i.mnemonic = "MOV" → 1 < l.tokens.length

theorem Mention.inBounds_of_find {d : Dialect} {labels : Array Label} {l : Line} {m : Mention}
    (h : find d labels l = .ok (some m)) : m.InBounds labels l := by
  obtain ⟨A, token, B, htokens, -, -, hm, hnames⟩ := find_eq_some.1 h
  refine ⟨by simp [htokens, hm], Array.mem_of_find?_eq_some hnames.2, fun i hi hmov => ?_⟩
  obtain ⟨⟨hcatalog, -⟩, hops⟩ := instruction_eq_ok.1 hi
  obtain rfl := Instruction.eq_mov_of_mnemonic hcatalog hmov
  obtain ⟨_, r, r', hset⟩ := Line.exists_mov_operands.1 hops
  have hlen := congrArg List.length hset
  simp only [List.length_set, List.length_cons, List.length_nil] at hlen
  omega

/-- Only the phase that looks for labels at the end gives faults of layout. -/
theorem Phase.eq_trailing_of_gives {phase : Phase} {cause : Fault.Cause}
    (h : phase.gives cause = true) (hkind : cause.kind = .layout) : phase = .trailing := by
  cases cause with
  | labelDangling name | transferRemoved label => cases phase <;> simp_all [gives]
  | _ => cases hkind

/-- The only fault of layout is a label at the end of the program. -/
theorem Program.resolve_layout_fault {d : Dialect} {p : Program} (hp : p.Valid) {f : Fault}
    (h : p.resolve d = .error f) (hkind : f.kind = .layout) :
    ∃ A l B, p.lines = A ++ l :: B ∧ (∀ l' ∈ l :: B, Label.declares d l' = true) ∧
      (∀ l' ∈ A.getLast?, Label.declares d l' = false) ∧
      f = ⟨.labelDangling l.first, l.source⟩ := by
  have hnot : ∀ (phase : Phase) (names : List String), phase ≠ .trailing →
      Check.first (phase.check d names) [] p.lines ≠ some f := by
    intro phase names hphase hfirst
    obtain ⟨A, l, B, -, hcheck, -⟩ := Check.first_eq_some.1 hfirst
    exact hphase (Phase.eq_trailing_of_gives (Phase.check_located hcheck).2 hkind)
  cases hlabels : Label.ofProgram d p with
  | ok labels =>
    have hfirst := first_references hp hlabels
    rw [h, refusal?_error] at hfirst
    exact absurd hfirst (hnot .references _ (by decide))
  | error e =>
    have he : p.resolve d = .error e := by
      rw [resolve, Layout.ofProgram, hlabels]
      rfl
    cases he.symm.trans h
    have hfirst := Label.first_check d p
    rw [hlabels, refusal?_error, Option.or_eq_some_iff] at hfirst
    rcases hfirst with hdeclarations | ⟨-, htrailing⟩
    · exact absurd hdeclarations (hnot .declarations [] (by decide))
    · obtain ⟨A, l, B, hlines, hcheck, -⟩ := Check.first_eq_some.1 htrailing
      rw [List.nil_append] at hcheck
      have hbroken : Phase.trailing.Broken d [] A l B := by
        rw [← Phase.isSome_check, Phase.check, hcheck]
        rfl
      exact ⟨A, l, B, hlines, hbroken.1, hbroken.2, (Label.checkTrailing_eq_some.1 hcheck).2⟩

theorem Layout.sound_ofProgram {d : Dialect} {p : Program} (hp : p.Valid) {s : Layout}
    (h : Layout.ofProgram d p = .ok s) : s.Sound := by
  obtain ⟨labels, hlabels, hstart⟩ := bind_eq_ok.1 h
  cases hstart
  refine (represents_plainBlocks (Program.valid_retain hp _) labels).sound
    (anchored_of_expands (d := d) .nil fun label hlabel => ?_)
  rw [List.nil_append, ← Program.ids_eq_map_entries]
  exact Label.target_mem hlabels label (Array.mem_toList_iff.2 hlabel)

theorem state_of_mem_finalBlocks {bs : List Block} {b : Block} (hb : b ∈ finalBlocks bs)
    {x : Reference} (hx : b.reference? = some x) :
    x.state = .relaxed ∨ x.state = .materialized := by
  obtain ⟨k, hk⟩ := List.getElem?_of_mem hb
  rw [getElem?_finalBlocks] at hk
  obtain ⟨b₀, -, rfl⟩ := Option.map_eq_some_iff.1 hk
  cases b₀ with
  | plain id l => cases hx
  | site id high transfer source u stage =>
    cases hx
    unfold finalStage
    split
    · exact .inl rfl
    · exact .inr rfl

/-- Once the references are expanded, nothing fails any more. -/
theorem Program.resolve_of_expanded {d : Dialect} {p : Program} (hp : p.Valid) {s : Layout}
    (h : Layout.ofProgram d p >>= Layout.expand d = .ok s) :
    ∃ s₁ s₂ r, s.relax = .ok s₁ ∧ s₁.materialize = .ok s₂ ∧ s₂.finish = .ok r ∧
      p.resolve d = .ok r ∧ s₂.Sound ∧
      ∀ x ∈ s₂.references, x.state = .relaxed ∨ x.state = .materialized := by
  obtain ⟨labels, bs, hlabels, hrep, hl, hbs⟩ := expanded_from hp h
  obtain ⟨s₂, r, hrun, hfinish, -⟩ := exists_resolved hp hlabels hrep hl hbs
  obtain ⟨s', hrun', hfinal, hl'⟩ := exists_final (fresh_of_expands hbs)
    (targeted_of_labels hlabels hbs) hrep hl
  cases hrun'.symm.trans hrun
  obtain ⟨s₁, hrelax, hmaterialize⟩ := bind_eq_ok.1 hrun
  refine ⟨s₁, s₂, r, hrelax, hmaterialize, hfinish, ?_, ?_, fun x hx => ?_⟩
  · rw [resolve, ← bind_assoc, h, ok_bind, hrelax, ok_bind, hmaterialize, ok_bind, hfinish]
  · exact hfinal.sound (hl' ▸ anchored_staged (anchored_of_labels hlabels hbs) _)
  · rw [← Array.mem_toList_iff, hfinal.references] at hx
    obtain ⟨b, hb, hbx⟩ := List.mem_filterMap.1 hx
    exact state_of_mem_finalBlocks hb hbx

/-- The handles of a resolution. From the time the labels have been read, every turn of every loop
starts and ends with a sound layout, takes references only from expanded to relaxed or materialized,
and finds what it names. So all that can fail after that is the reading of a reference; and a fault
of layout is always that of a label at the end of the program. -/
theorem Program.resolve_keeps_handles {d : Dialect} {p : Program} (hp : p.Valid) :
    (∀ s, Layout.ofProgram d p = .ok s → s.Sound) ∧
    (∀ s s' job, Turn d p s s' job →
      s.Sound ∧ s'.Sound ∧ s.Follows s' ∧ s.InBounds d s' job) ∧
    (∀ labels l m, Mention.find d labels l = .ok (some m) → m.InBounds labels l) ∧
    (∀ s, Layout.ofProgram d p >>= Layout.expand d = .ok s →
      ∃ s₁ s₂ r, s.relax = .ok s₁ ∧ s₁.materialize = .ok s₂ ∧ s₂.finish = .ok r ∧
        p.resolve d = .ok r ∧ s₂.Sound ∧
        ∀ x ∈ s₂.references, x.state = .relaxed ∨ x.state = .materialized) ∧
    ∀ f, p.resolve d = .error f → f.kind = .layout →
      ∃ A l B, p.lines = A ++ l :: B ∧ (∀ l' ∈ l :: B, Label.declares d l' = true) ∧
        (∀ l' ∈ A.getLast?, Label.declares d l' = false) ∧
        f = ⟨.labelDangling l.first, l.source⟩ := by
  refine ⟨fun s h => Layout.sound_ofProgram hp h, fun s s' job h => h.safe hp,
    fun labels l m h => Mention.inBounds_of_find h, fun s h => resolve_of_expanded hp h,
    fun f h hkind => resolve_layout_fault hp h hkind⟩

/-- A loop with a jump to its own line and the load of an address. -/
theorem Program.resolve_keeps_handles_loop : ∃ s s₁ s₂ r,
    Layout.ofProgram {} (ofLines [⟨[".loop"], 1⟩, ⟨["JUC", ".loop$r2"], 2⟩,
      ⟨["MOV", "r1", ".loop"], 3⟩]) >>= Layout.expand {} = .ok s ∧
    s.relax = .ok s₁ ∧ s₁.materialize = .ok s₂ ∧ s₂.finish = .ok r ∧ s₂.Sound ∧
    s₂.references.size = 2 ∧
    ∀ x ∈ s₂.references, x.state = .relaxed ∨ x.state = .materialized := by
  obtain ⟨s, hs⟩ := exists_ok_of_isOk (x := Layout.ofProgram {} (ofLines [⟨[".loop"], 1⟩,
    ⟨["JUC", ".loop$r2"], 2⟩, ⟨["MOV", "r1", ".loop"], 3⟩]) >>= Layout.expand {})
    (by decide +kernel)
  obtain ⟨-, -, -, hrun, -⟩ := resolve_keeps_handles (d := {}) (valid_ofLines
    [⟨[".loop"], 1⟩, ⟨["JUC", ".loop$r2"], 2⟩, ⟨["MOV", "r1", ".loop"], 3⟩])
  obtain ⟨s₁, s₂, r, hrelax, hmaterialize, hfinish, hresolve, hsound, hstates⟩ := hrun s hs
  have hsize : ((ofLines [⟨[".loop"], 1⟩, ⟨["JUC", ".loop$r2"], 2⟩,
      ⟨["MOV", "r1", ".loop"], 3⟩]).resolve {}).toOption.map Resolution.expanded = some 2 := by
    decide +kernel
  rw [hresolve] at hsize
  obtain ⟨symbols, -, hr⟩ := bind_eq_ok.1 hfinish
  cases hr
  exact ⟨s, s₁, s₂, _, hs, hrelax, hmaterialize, hfinish, hsound, Option.some.inj hsize, hstates⟩

end CompactRisc
