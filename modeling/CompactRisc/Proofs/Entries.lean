import CompactRisc.Proofs.Edits

/-!
# Programs as plain lists

A program behaves as the plain list of its entries. Handles are names that stay with the lines: an
edit finds a line by its handle or by its place, and neither the other lines nor their order change.

`Edit.onEntries` says what each edit is on a plain list. It knows nothing of a store or an index.

Results:
* `Valid.position_eq_findIdx?`, `idAt_eq`: what can be asked of a program, asked of the list.
* `entries_edit?`: an edit of a program is the same edit of the list, with the same answer, and is
  refused in the same cases.
* `editAll?_refines_entries`: this holds of every program that edits lead to.
-/
namespace CompactRisc

/-- An edit of a plain list of lines with handles; `next` is the handle of the next new line. -/
def Edit.onEntries (next : LineId) (entries : List (LineId × Line)) :
    Edit → Option (Edit.Answer × List (LineId × Line))
  | .push l => some (.made next, entries ++ [(next, l)])
  | .insert pos l =>
    if pos ≤ entries.length then some (.made next, entries.insertIdx pos (next, l)) else none
  | .removeAt pos => entries[pos]?.map fun x => (.removed x.1, entries.eraseIdx pos)
  | .removeId id =>
    match entries.findIdx? (·.1 == id) with
    | some pos => some (.stood (some pos), entries.eraseIdx pos)
    | none => some (.stood none, entries)
  | .retain keep => some (.done, entries.filter fun x => keep x.2)
  | .modify id f =>
    if id < next then
      some (.done, entries.map fun x => if x.1 = id then (x.1, f x.2) else x)
    else none
  | .modifyLive f =>
    -- the lines have their turn in the order of their handles
    let visited := (entries.map Prod.fst).mergeSort
    some (.visited visited, entries.map fun x => (x.1, f (visited.idxOf x.1) x.2))

namespace Program

/-! ## Questions -/

theorem Valid.position_eq_findIdx? {p : Program} (hp : p.Valid) (id : LineId) :
    p.position id = p.entries.findIdx? (·.1 == id) := by
  have hids : p.entries.findIdx? (·.1 == id) = p.ids.findIdx? (· == id) := by
    rw [ids_eq_map_entries, List.findIdx?_map]
    rfl
  rw [hids]
  cases hpos : p.position id with
  | none =>
    symm
    rw [List.findIdx?_eq_none_iff]
    intro x hx
    rw [beq_eq_false_iff_ne]
    rintro rfl
    obtain ⟨pos, hpos'⟩ := List.getElem?_of_mem hx
    rw [(hp.position_iff x pos).2 hpos'] at hpos
    cases hpos
  | some pos =>
    symm
    rw [List.findIdx?_eq_some_iff_getElem]
    obtain ⟨hlt, hget⟩ := List.getElem?_eq_some_iff.1 ((hp.position_iff id pos).1 hpos)
    refine ⟨hlt, by simp [hget], fun j hj => ?_⟩
    -- no earlier place has the same handle
    rw [← hget]
    simp only [beq_iff_eq]
    intro he
    have := (hp.nodup.getElem_inj_iff).1 he
    omega

theorem idAt_eq (p : Program) (pos : Nat) : p.idAt pos = p.entries[pos]?.map Prod.fst := by
  rw [← List.getElem?_map, ← ids_eq_map_entries]
  exact Array.getElem?_toList.symm

theorem line?_of_mem_entries {p : Program} (hp : p.Valid) {id : LineId} {l : Line}
    (h : (id, l) ∈ p.entries) : p.line? id = some l := by
  rw [line?_eq_some (hp.lt_nextId (mem_ids_of_mem_entries h)), line_of_mem_entries h]

theorem isSome_line?_iff (p : Program) (id : LineId) : (p.line? id).isSome ↔ id < p.nextId := by
  simp [line?, nextId]

/-- The order of the handles is the order in which the lines were made. -/
theorem Valid.liveIds_eq {p : Program} (hp : p.Valid) :
    p.liveIds = (p.entries.map Prod.fst).mergeSort := by
  rw [← ids_eq_map_entries]
  have hperm : p.liveIds.Perm p.ids.mergeSort :=
    ((List.perm_ext_iff_of_nodup p.nodup_liveIds hp.nodup).2 fun _ => hp.mem_liveIds).trans
      (List.mergeSort_perm ..).symm
  have hlive : p.liveIds.Pairwise (· ≤ ·) := List.pairwise_le_range.filter _
  have hsorted : p.ids.mergeSort.Pairwise (· ≤ ·) := by
    have := @List.pairwise_mergeSort Nat (fun a b => decide (a ≤ b))
      (fun a b c => by simpa using Nat.le_trans) (fun a b => by simpa using Nat.le_total a b) p.ids
    simpa using this
  exact hperm.eq_of_pairwise (fun a b _ _ => Nat.le_antisymm) hlive hsorted

/-! ## Edits -/

/-- An edit of a program is the same edit of the list of its entries. -/
theorem entries_edit? {p : Program} (hp : p.Valid) (e : Edit) :
    (p.edit? e).map (fun x => (x.1, x.2.entries)) = e.onEntries p.nextId p.entries := by
  cases e with
  | push l => simp [edit?, Edit.onEntries, entries_push hp]
  | insert pos l =>
    simp only [edit?, Edit.onEntries, length_entries]
    split
    · simp [entries_insert hp]
    · rfl
  | removeAt pos =>
    simp only [edit?, Edit.onEntries, idAt_eq, Option.map_map, Function.comp_def, entries_removeAt]
  | removeId id =>
    simp only [edit?, Edit.onEntries, ← hp.position_eq_findIdx?, Option.map_some]
    cases hpos : p.position id with
    | none => simp [removeId, hpos]
    | some pos => simp [removeId, hpos, entries_removeAt]
  | retain keep => simp [edit?, Edit.onEntries, entries_retain]
  | modify id f =>
    simp only [edit?, Edit.onEntries, Option.map_map, Function.comp_def, entries_modify hp]
    by_cases hid : id < p.nextId
    · rw [line?_eq_some hid, if_pos hid]
      rfl
    · rw [Option.not_isSome_iff_eq_none.1 (mt (p.isSome_line?_iff id).1 hid), if_neg hid]
      rfl
  | modifyLive f =>
    simp only [edit?, Edit.onEntries, Option.map_some, entries_modifyLive hp, hp.liveIds_eq]

/-- Every program that edits lead to is, to the next edit, the plain list of its entries: the answer
and the new entries are those of the list, new handles are fresh, the contents of all other lines
stay, also of those that have been taken out, and the lines that are left keep their order. -/
theorem editAll?_refines_entries {lines : List Line} {edits : List Edit} {log : List Edit.Answer}
    {p : Program} (h : (ofLines lines).editAll? edits = some (log, p)) :
    (∀ e : Edit, (p.edit? e).map (fun x => (x.1, x.2.entries)) = e.onEntries p.nextId p.entries) ∧
    (p.line? p.nextId = none ∧ p.nextId ∉ p.entries.map Prod.fst) ∧
    (∀ id, p.position id = p.entries.findIdx? (·.1 == id)) ∧
    (∀ pos, p.idAt pos = p.entries[pos]?.map Prod.fst) ∧
    (∀ id l, (id, l) ∈ p.entries → p.line? id = some l) ∧
    ∀ e a q, p.edit? e = some (a, q) →
      (∀ id < p.nextId, q.line? id = (p.line? id).map (e.effect p id)) ∧
      ((q.entries.map Prod.fst).filter (· < p.nextId)).Sublist (p.entries.map Prod.fst) := by
  have hp := valid_editAll? (valid_ofLines lines) h
  refine ⟨entries_edit? hp, ⟨?_, ?_⟩, hp.position_eq_findIdx?, p.idAt_eq,
    fun id l => line?_of_mem_entries hp, fun e a q hq => ⟨fun id => line?_edit? hp hq, ?_⟩⟩
  · rw [← Option.not_isSome_iff_eq_none, isSome_line?_iff]
    exact Nat.lt_irrefl _
  · rw [← ids_eq_map_entries]
    exact hp.nextId_not_mem
  · rw [← ids_eq_map_entries, ← ids_eq_map_entries]
    exact (later_edit? hp hq).survivors

/-- The handle of a line that has been taken out finds nothing, and the line can still be read. -/
theorem editAll?_refines_entries_stale : ∃ p q,
    (ofLines [⟨["NOP"], 1⟩, ⟨["RET"], 2⟩, ⟨["MUL"], 3⟩]).editAll? [.removeId 0] =
      some ([.stood (some 0)], p) ∧
    p.entries = [(1, ⟨["RET"], 2⟩), (2, ⟨["MUL"], 3⟩)] ∧
    p.position 2 = some 1 ∧
    (p.edit? (.removeId 0)).map (fun x => (x.1, x.2.entries)) = some (.stood none, p.entries) ∧
    p.edit? (.insert 1 ⟨["NOP"], 4⟩) = some (.made 3, q) ∧
    q.line? 0 = some ⟨["NOP"], 1⟩ := by
  have hp : (ofLines [⟨["NOP"], 1⟩, ⟨["RET"], 2⟩, ⟨["MUL"], 3⟩]).editAll? [.removeId 0] =
      some ([.stood (some 0)], ⟨#[⟨["NOP"], 1⟩, ⟨["RET"], 2⟩, ⟨["MUL"], 3⟩], #[1, 2],
        #[none, some 0, some 1]⟩) := by
    decide +kernel
  obtain ⟨hedit, -, hposition, -, -, hframe⟩ := editAll?_refines_entries hp
  have hread := (hframe (.insert 1 ⟨["NOP"], 4⟩) _ _ rfl).1 0 (by decide)
  exact ⟨_, _, hp, rfl, hposition 2, hedit (.removeId 0), rfl, hread⟩

end Program

end CompactRisc
