import CompactRisc.Edit
import CompactRisc.Proofs.Sequence

/-!
# What edits do to a program

A program may be edited in any way and for any time: its index stays right, and a handle that was
given out keeps its meaning. It never stands for another line, and once its line has been taken out
it stays out.

Results:
* `valid_edit?`, `valid_editAll?`: an edit keeps the index right, and so does a run of edits.
* `later_edit?`, `later_editAll?`: an edit gives out the next handle or none, and the lines that are
  left stand in the order that they had; the same for a run.
* `line?_edit?`: what an edit does to the contents of every line that there was.
* `editAll?_keeps_index`: the state of a program after any edits, and of its handles after any
  further ones.
-/
namespace CompactRisc

/-- The handle that was given out, if one was. -/
def Edit.Answer.handles : Edit.Answer → List LineId
  | made id => [id]
  | _ => []

/-- What an edit of `p` does to the contents of the line `id`. -/
def Edit.effect (p : Program) (id : LineId) : Edit → Line → Line
  | .modify id' f => if id' = id then f else fun l => l
  | .modifyLive f => if id ∈ p.ids then f (p.liveIds.idxOf id) else fun l => l
  | _ => fun l => l

namespace Program

/-- An edit that is carried out is one that names a place or line that there is. -/
theorem edit?_eq_some {p q : Program} {e : Edit} {a : Edit.Answer} (h : p.edit? e = some (a, q)) :
    match e with
    | .push l => a = .made p.nextId ∧ q = p.push l
    | .insert pos l => pos ≤ p.size ∧ a = .made p.nextId ∧ q = p.insert pos l
    | .removeAt pos => a.handles = [] ∧ q = p.removeAt pos
    | .removeId id => a.handles = [] ∧ q = p.removeId id
    | .retain keep => a.handles = [] ∧ q = p.retain keep
    | .modify id f => a.handles = [] ∧ q = p.modify id f
    | .modifyLive f => a.handles = [] ∧ q = p.modifyLive f := by
  cases e with
  | insert pos l =>
    simp only [edit?] at h
    split at h
    · cases h
      exact ⟨‹_›, rfl, rfl⟩
    · cases h
  | removeAt pos | modify id f =>
    obtain ⟨_, -, he⟩ := Option.map_eq_some_iff.1 h
    cases he
    exact ⟨rfl, rfl⟩
  | push l | removeId id | retain keep | modifyLive f =>
    cases h
    exact ⟨rfl, rfl⟩

/-! ## The index -/

theorem valid_edit? {p q : Program} (hp : p.Valid) {e : Edit} {a : Edit.Answer}
    (h : p.edit? e = some (a, q)) : q.Valid := by
  have hcase := edit?_eq_some h
  cases e with
  | push l => exact hcase.2 ▸ valid_push hp l
  | insert pos l => exact hcase.2.2 ▸ valid_insert hp hcase.1 l
  | removeAt pos => exact hcase.2 ▸ valid_removeAt hp pos
  | removeId id => exact hcase.2 ▸ valid_removeId hp id
  | retain keep => exact hcase.2 ▸ valid_retain hp keep
  | modify id f => exact hcase.2 ▸ valid_modify hp id f
  | modifyLive f => exact hcase.2 ▸ valid_modifyLive hp f

theorem editAll?_cons {p q : Program} {e : Edit} {edits : List Edit} {log : List Edit.Answer}
    (h : p.editAll? (e :: edits) = some (log, q)) : ∃ a p' log', p.edit? e = some (a, p') ∧
      p'.editAll? edits = some (log', q) ∧ log = a :: log' := by
  obtain ⟨⟨a, p'⟩, he, hrest⟩ := Option.bind_eq_some_iff.1 h
  obtain ⟨⟨log', q'⟩, hrun, hq⟩ := Option.map_eq_some_iff.1 hrest
  cases hq
  exact ⟨a, p', log', he, hrun, rfl⟩

theorem editAll?_of_edit? {p q r : Program} {e : Edit} {edits : List Edit} {a : Edit.Answer}
    {log : List Edit.Answer} (he : p.edit? e = some (a, q))
    (h : q.editAll? edits = some (log, r)) : p.editAll? (e :: edits) = some (a :: log, r) := by
  rw [editAll?, he, Option.bind_some, h, Option.map_some]

theorem valid_editAll? {p q : Program} (hp : p.Valid) {edits : List Edit} {log : List Edit.Answer}
    (h : p.editAll? edits = some (log, q)) : q.Valid := by
  induction edits generalizing p log with
  | nil =>
    cases h
    exact hp
  | cons e edits ih =>
    obtain ⟨a, p', log', he, hrun, -⟩ := editAll?_cons h
    exact ih (valid_edit? hp he) hrun

/-! ## Handles -/

/-- The program `q` comes after `p`, and `new` are the handles given out in between. -/
structure Later (p : Program) (new : List LineId) (q : Program) : Prop where
  nextId_le : p.nextId ≤ q.nextId
  /-- Handles are given out one after the other. -/
  new_eq : new = List.range' p.nextId (q.nextId - p.nextId)
  /-- The lines of `p` that are left stand in the order that they had. -/
  survivors : (q.ids.filter (· < p.nextId)).Sublist p.ids

/-- A change that gives out no handle can only take lines out. -/
theorem later_of_sublist {p q : Program} (hnext : q.nextId = p.nextId)
    (h : q.ids.Sublist p.ids) : Later p [] q := by
  refine ⟨Nat.le_of_eq hnext.symm, ?_, List.filter_sublist.trans h⟩
  simp [hnext]

theorem Later.trans {p q r : Program} {xs ys : List LineId} (h : Later p xs q)
    (h' : Later q ys r) : Later p (xs ++ ys) r := by
  refine ⟨Nat.le_trans h.nextId_le h'.nextId_le, ?_, ?_⟩
  · obtain ⟨m, hm⟩ := Nat.exists_eq_add_of_le h.nextId_le
    obtain ⟨n, hn⟩ := Nat.exists_eq_add_of_le h'.nextId_le
    rw [h.new_eq, h'.new_eq, hn, hm, Nat.add_assoc, Nat.add_sub_cancel_left,
      Nat.add_sub_cancel_left, ← Nat.add_assoc, Nat.add_sub_cancel_left, List.range'_append_1]
  · -- what is older than `p` is older than `q`
    have hold : r.ids.filter (· < p.nextId) =
        (r.ids.filter (· < q.nextId)).filter (· < p.nextId) := by
      rw [List.filter_filter]
      apply List.filter_congr
      intro id _
      by_cases hid : id < p.nextId
      · simp [hid, Nat.lt_of_lt_of_le hid h.nextId_le]
      · simp [hid]
    rw [hold]
    exact (h'.survivors.filter _).trans h.survivors

theorem later_insert {p : Program} (hp : p.Valid) {pos : Nat} (hpos : pos ≤ p.size) (l : Line) :
    Later p [p.nextId] (p.insert pos l) := by
  have hnext := nextId_insert p pos l
  refine ⟨hnext ▸ Nat.le_succ _, by simp [hnext], ?_⟩
  have hlen : pos ≤ p.ids.length := by simpa [ids, size] using hpos
  have hself : p.ids.filter (· < p.nextId) = p.ids :=
    List.filter_eq_self.2 fun id hid => by simpa using hp.lt_nextId hid
  have hsub := (List.sublist_insertIdx p.ids pos p.nextId).filter (· < p.nextId)
  have hperm := (List.perm_insertIdx p.nextId p.ids hlen).filter (· < p.nextId)
  rw [List.filter_cons_of_neg (by simp)] at hperm
  rw [ids_insert, ← hsub.eq_of_length hperm.length_eq.symm, hself]

theorem later_removeAt (p : Program) (pos : Nat) : Later p [] (p.removeAt pos) := by
  apply later_of_sublist
  · unfold removeAt
    split <;> rfl
  · rw [ids_removeAt]
    exact List.eraseIdx_sublist ..

theorem later_edit? {p q : Program} (hp : p.Valid) {e : Edit} {a : Edit.Answer}
    (h : p.edit? e = some (a, q)) : Later p a.handles q := by
  have hcase := edit?_eq_some h
  cases e with
  | push l =>
    rw [hcase.1, hcase.2, push_eq_insert hp]
    exact later_insert hp (Nat.le_refl _) l
  | insert pos l =>
    rw [hcase.2.1, hcase.2.2]
    exact later_insert hp hcase.1 l
  | removeAt pos =>
    rw [hcase.1, hcase.2]
    exact later_removeAt p pos
  | removeId id =>
    rw [hcase.1, hcase.2, removeId]
    split
    · exact later_of_sublist rfl (List.Sublist.refl _)
    · exact later_removeAt p _
  | retain keep =>
    rw [hcase.1, hcase.2]
    exact later_of_sublist rfl (ids_retain p keep ▸ List.filter_sublist)
  | modify id f =>
    rw [hcase.1, hcase.2]
    exact later_of_sublist (nextId_modify ..) (List.Sublist.refl _)
  | modifyLive f =>
    rw [hcase.1, hcase.2]
    exact later_of_sublist (nextId_modifyLive ..) (ids_modifyLive p f ▸ List.Sublist.refl _)

theorem later_editAll? {p q : Program} (hp : p.Valid) {edits : List Edit} {log : List Edit.Answer}
    (h : p.editAll? edits = some (log, q)) : Later p (log.flatMap Edit.Answer.handles) q := by
  induction edits generalizing p log with
  | nil =>
    cases h
    exact later_of_sublist rfl (List.Sublist.refl _)
  | cons e edits ih =>
    obtain ⟨a, p', log', he, hrun, rfl⟩ := editAll?_cons h
    rw [List.flatMap_cons]
    exact (later_edit? hp he).trans (ih (valid_edit? hp he) hrun)

theorem Later.not_mem {p q : Program} {new : List LineId} (h : Later p new q) {id : LineId}
    (hlt : id < p.nextId) (hid : id ∉ p.ids) : id ∉ q.ids := by
  intro hq
  exact hid (h.survivors.subset (List.mem_filter.2 ⟨hq, by simpa using hlt⟩))

/-! ## Contents -/

theorem line?_eq_some {p : Program} {id : LineId} (h : id < p.nextId) :
    p.line? id = some (p.line id) := by
  have hlt : id < p.store.size := h
  simp [line, line?, hlt]

theorem edit?_modify {p : Program} {id : LineId} (h : id < p.nextId) (f : Line → Line) :
    p.edit? (.modify id f) = some (.done, p.modify id f) := by
  rw [edit?, line?_eq_some h, Option.map_some]

theorem edit?_insert {p : Program} {pos : Nat} (h : pos ≤ p.size) (l : Line) :
    p.edit? (.insert pos l) = some (.made p.nextId, p.insert pos l) := if_pos h

theorem edit?_removeId {p : Program} {id : LineId} {q : Nat} (h : p.position id = some q) :
    p.edit? (.removeId id) = some (.stood (some q), p.removeId id) := by
  rw [edit?, h]

/-- Every line that there was has after an edit the contents that the edit gives it. -/
theorem line?_edit? {p q : Program} (hp : p.Valid) {e : Edit} {a : Edit.Answer}
    (h : p.edit? e = some (a, q)) {id : LineId} (hid : id < p.nextId) :
    q.line? id = (p.line? id).map (e.effect p id) := by
  have hlt : id < q.nextId := Nat.lt_of_lt_of_le hid (later_edit? hp h).nextId_le
  have hcase := edit?_eq_some h
  rw [line?_eq_some hlt, line?_eq_some hid, Option.map_some, Option.some.injEq]
  cases e with
  | push l =>
    rw [hcase.2, push_eq_insert hp]
    exact line_insert_of_ne p p.size l (Nat.ne_of_lt hid)
  | insert pos l =>
    rw [hcase.2.2]
    exact line_insert_of_ne p pos l (Nat.ne_of_lt hid)
  | removeAt pos =>
    rw [hcase.2]
    exact line_removeAt p pos id
  | removeId id' =>
    rw [hcase.2, removeId]
    split
    · rfl
    · exact line_removeAt p _ id
  | retain keep =>
    rw [hcase.2]
    exact line_retain p keep id
  | modify id' f =>
    rw [hcase.2]
    by_cases he : id' = id
    · subst he
      simp [Edit.effect, line_modify_self p f hid]
    · simp [Edit.effect, he, line_modify_of_ne p f he]
  | modifyLive f =>
    rw [hcase.2, line_modifyLive hp]
    by_cases hmem : id ∈ p.ids <;> simp [Edit.effect, hmem]

/-! ## Every program that edits lead to -/

/-- Under agreement, the entry of a handle in the index is the place that it stands at. -/
theorem Valid.getElem?_positions_iff {p : Program} (hp : p.Valid) {id pos : Nat}
    (hid : id < p.store.size) :
    p.positions[id]? = some (some pos) ↔ p.order[pos]? = some id := by
  have hlt : id < p.positions.size := hp.indexed ▸ hid
  have hplace : p.order[pos]? = p.ids[pos]? := Array.getElem?_toList.symm
  rw [hplace, ← hp.position_iff]
  simp [position, hlt]

/-- Going through the lines of a sequence, each of them is met once and no other is. -/
theorem modifyLive_visits {p q : Program} (hp : p.Valid) {f : Nat → Line → Line} {a : Edit.Answer}
    (h : p.edit? (.modifyLive f) = some (a, q)) :
    ∃ visited, a = .visited visited ∧ visited.Nodup ∧ (∀ id, id ∈ visited ↔ id ∈ p.order) ∧
      (∀ k id, visited[k]? = some id → q.line? id = (p.line? id).map (f k)) ∧
      ∀ id < p.nextId, id ∉ p.order → q.line? id = p.line? id := by
  have hcontents : ∀ id < p.nextId, q.line? id = _ := fun id hid => line?_edit? hp h hid
  cases h
  refine ⟨p.liveIds, rfl, p.nodup_liveIds, fun id => ?_, fun k id hk => ?_, fun id hid hout => ?_⟩
  · rw [hp.mem_liveIds, ids, Array.mem_toList_iff]
  · have hmem : id ∈ p.ids := hp.mem_liveIds.1 (List.mem_of_getElem? hk)
    obtain ⟨hlt, rfl⟩ := List.getElem?_eq_some_iff.1 hk
    rw [hcontents _ (hp.lt_nextId hmem), Edit.effect, if_pos hmem,
      p.nodup_liveIds.idxOf_getElem]
  · rw [hcontents id hid, Edit.effect, if_neg (by simpa [ids] using hout), Option.map_id']

/-- However a program has been edited, its index agrees with its sequence. However it is edited
further, no handle is given out a second time, and no line comes back that has been taken out. -/
theorem editAll?_keeps_index {lines : List Line} {edits : List Edit} {log : List Edit.Answer}
    {p : Program} (h : (ofLines lines).editAll? edits = some (log, p)) :
    p.positions.size = p.store.size ∧
    p.order.toList.Nodup ∧
    (∀ id ∈ p.order, id < p.store.size) ∧
    (∀ id pos : Nat, id < p.store.size →
      (p.positions[id]? = some (some pos) ↔ p.order[pos]? = some id)) ∧
    (∀ f a q, p.edit? (.modifyLive f) = some (a, q) →
      ∃ visited, a = .visited visited ∧ visited.Nodup ∧ (∀ id, id ∈ visited ↔ id ∈ p.order) ∧
        (∀ k id, visited[k]? = some id → q.line? id = (p.line? id).map (f k)) ∧
        ∀ id < p.nextId, id ∉ p.order → q.line? id = p.line? id) ∧
    ∀ further log' q, p.editAll? further = some (log', q) →
      p.nextId ≤ q.nextId ∧
      log'.flatMap Edit.Answer.handles = List.range' p.nextId (q.nextId - p.nextId) ∧
      ∀ id < p.nextId, id ∉ p.order → id ∉ q.order := by
  have hp := valid_editAll? (valid_ofLines lines) h
  refine ⟨hp.indexed, hp.nodup, fun id hid => hp.lt_nextId (Array.mem_toList_iff.2 hid),
    fun id pos hid => hp.getElem?_positions_iff hid, fun f a q hq => modifyLive_visits hp hq,
    fun further log' q hq => ?_⟩
  have hlater := later_editAll? hp hq
  refine ⟨hlater.nextId_le, hlater.new_eq, fun id hid hout hin => ?_⟩
  exact hlater.not_mem hid (by simpa [ids] using hout) (Array.mem_toList_iff.2 hin)

/-- A line is taken out, and others come in before and after that. -/
theorem editAll?_keeps_index_removed : ∃ p q,
    (ofLines [⟨["NOP"], 1⟩, ⟨["RET"], 2⟩]).editAll? [.insert 1 ⟨["MUL"], 3⟩, .removeId 0] =
      some ([.made 2, .stood (some 0)], p) ∧
    p.editAll? [.insert 0 ⟨["CALL"], 4⟩, .removeId 0, .push ⟨["NOP"], 5⟩] =
      some ([.made 3, .stood none, .made 4], q) ∧
    p.order = #[2, 1] ∧ p.order.toList.Nodup ∧ q.order = #[3, 2, 1, 4] ∧ 0 ∉ q.order := by
  have hp : (ofLines [⟨["NOP"], 1⟩, ⟨["RET"], 2⟩]).editAll?
      [.insert 1 ⟨["MUL"], 3⟩, .removeId 0] = some ([.made 2, .stood (some 0)],
        ⟨#[⟨["NOP"], 1⟩, ⟨["RET"], 2⟩, ⟨["MUL"], 3⟩], #[2, 1], #[none, some 1, some 0]⟩) := by
    decide +kernel
  have hq : editAll? ⟨#[⟨["NOP"], 1⟩, ⟨["RET"], 2⟩, ⟨["MUL"], 3⟩], #[2, 1],
        #[none, some 1, some 0]⟩ [.insert 0 ⟨["CALL"], 4⟩, .removeId 0, .push ⟨["NOP"], 5⟩] =
      some ([.made 3, .stood none, .made 4],
        ⟨#[⟨["NOP"], 1⟩, ⟨["RET"], 2⟩, ⟨["MUL"], 3⟩, ⟨["CALL"], 4⟩, ⟨["NOP"], 5⟩], #[3, 2, 1, 4],
          #[none, some 2, some 1, some 0, some 3]⟩) := by
    decide +kernel
  obtain ⟨-, hnodup, -, -, -, hfurther⟩ := editAll?_keeps_index hp
  exact ⟨_, _, hp, hq, rfl, hnodup, rfl, (hfurther _ _ _ hq).2.2 0 (by decide) (by simp)⟩

end Program

end CompactRisc
