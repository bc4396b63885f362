import Mathlib.Data.List.InsertIdx
import Mathlib.Data.List.Nodup
import CompactRisc.Program

/-!
# Programs as sequences

A program keeps its sequence twice: as the list of its handles and as the position of each handle.
`Valid` says that the two agree. Every operation keeps it, and under it a program stands for the
list of its entries, the lines of the sequence with their handles.

Results:
* `Valid.position_eq`: the position of a handle is its index in the sequence.
* `valid_insert`, `valid_removeId`, `valid_retain`, ...: the operations keep `Valid`.
* `entries_insert`, `entries_removeId`, `entries_retain`, `entries_modify`, ...: what each operation
  does to the list of entries. Nothing but the named line is touched.
-/
namespace CompactRisc.Program

/-- The index of a program agrees with its sequence. -/
structure Valid (p : Program) : Prop where
  /-- Every line that was ever made is indexed. -/
  indexed : p.positions.size = p.store.size
  /-- The index gives the place of every handle of the sequence, and no other handle a place. -/
  position_iff : ∀ id pos, p.position id = some pos ↔ p.ids[pos]? = some id

/-! ## Consequences of agreement -/

theorem Valid.lt_nextId {p : Program} (hp : p.Valid) {id : LineId} (h : id ∈ p.ids) :
    id < p.nextId := by
  obtain ⟨pos, hpos⟩ := List.getElem?_of_mem h
  have hsome := (hp.position_iff id pos).2 hpos
  unfold position at hsome
  rw [Array.getD_eq_getD_getElem?] at hsome
  by_cases hlt : id < p.positions.size
  · rw [hp.indexed] at hlt
    exact hlt
  · simp [Array.getElem?_eq_none (Nat.le_of_not_lt hlt)] at hsome

theorem Valid.nodup {p : Program} (hp : p.Valid) : p.ids.Nodup := by
  rw [List.nodup_iff_getElem?_ne_getElem?]
  intro i j hij hj h
  have hi := (hp.position_iff _ j).2 (List.getElem?_eq_getElem hj)
  rw [List.getElem?_eq_getElem hj] at h
  have hi' := (hp.position_iff _ i).2 h
  rw [hi] at hi'
  simp only [Option.some.injEq] at hi'
  omega

theorem Valid.nextId_not_mem {p : Program} (hp : p.Valid) : p.nextId ∉ p.ids :=
  fun h => Nat.lt_irrefl _ (hp.lt_nextId h)

theorem Valid.position_eq_none {p : Program} (hp : p.Valid) {id : LineId} (h : id ∉ p.ids) :
    p.position id = none := by
  cases hpos : p.position id with
  | none => rfl
  | some pos => exact absurd (List.mem_of_getElem? ((hp.position_iff id pos).1 hpos)) h

theorem Valid.lt_nextId_of_position {p : Program} (hp : p.Valid) {id : LineId} {q : Nat}
    (h : p.position id = some q) : id < p.nextId :=
  hp.lt_nextId (List.mem_of_getElem? ((hp.position_iff id q).1 h))

theorem Valid.lt_size_of_position {p : Program} (hp : p.Valid) {id : LineId} {q : Nat}
    (h : p.position id = some q) : q < p.size := by
  have hlt := (List.getElem?_eq_some_iff.1 ((hp.position_iff id q).1 h)).1
  simpa [ids, size] using hlt

theorem Valid.getElem?_positions {p : Program} (hp : p.Valid) {q : Nat} {id : LineId}
    (h : p.ids[q]? = some id) : p.positions[id]? = some (some q) := by
  have hlt : id < p.positions.size := by
    rw [hp.indexed]
    exact hp.lt_nextId (List.mem_of_getElem? h)
  have hsome := (hp.position_iff id q).2 h
  simpa [position, hlt] using hsome

/-- Taking out one place takes out the handle there and no other. -/
theorem Valid.mem_eraseIdx {p : Program} (hp : p.Valid) {pos : Nat} {id id' : LineId}
    (h : p.ids[pos]? = some id) : id' ∈ p.ids.eraseIdx pos ↔ id' ≠ id ∧ id' ∈ p.ids := by
  obtain ⟨hlt, rfl⟩ := List.getElem?_eq_some_iff.1 h
  rw [← hp.nodup.erase_getElem, hp.nodup.mem_erase_iff]

/-- The sequence determines its index. -/
theorem Valid.eq_of_order {p q : Program} (hp : p.Valid) (hq : q.Valid) (hstore : p.store = q.store)
    (horder : p.order = q.order) : p = q := by
  have hposition : ∀ id, p.position id = q.position id := by
    intro id
    apply Option.ext
    intro pos
    rw [hp.position_iff, hq.position_iff, ids, ids, horder]
  have hpositions : p.positions = q.positions := by
    apply Array.ext
    · rw [hp.indexed, hq.indexed, hstore]
    · intro id h h'
      simpa [position, h, h'] using hposition id
  cases p
  cases q
  simp_all

theorem ids_eq_map_entries (p : Program) : p.ids = p.entries.map Prod.fst := by
  simp [entries, Function.comp_def]

theorem lines_eq_map_entries (p : Program) : p.lines = p.entries.map Prod.snd := by
  simp [entries, lines, Function.comp_def]

theorem length_entries (p : Program) : p.entries.length = p.size := by
  simp [entries, ids, size]

theorem line_of_mem_entries {p : Program} {e : LineId × Line} (h : e ∈ p.entries) :
    p.line e.1 = e.2 := by
  obtain ⟨id, -, rfl⟩ := List.mem_map.1 h
  rfl

theorem mem_ids_of_mem_entries {p : Program} {e : LineId × Line} (h : e ∈ p.entries) :
    e.1 ∈ p.ids := by
  obtain ⟨id, hid, rfl⟩ := List.mem_map.1 h
  exact hid

/-- The place of an entry is the number of entries before it. -/
theorem Valid.position_eq {p : Program} (hp : p.Valid) {A B : List (LineId × Line)}
    {e : LineId × Line} (h : p.entries = A ++ e :: B) : p.position e.1 = some A.length := by
  rw [hp.position_iff, ids_eq_map_entries, h]
  simp

/-! ## Recording positions -/

theorem place_unique {order : Array LineId} (hnd : order.toList.Nodup) {q q' : Nat} {id : LineId}
    (h : order[q]? = some id) (h' : order[q']? = some id) : q = q' := by
  rw [← Array.getElem?_toList] at h h'
  obtain ⟨hlt, -⟩ := List.getElem?_eq_some_iff.1 h
  exact (List.getElem?_inj hlt hnd).1 (h.trans h'.symm)

theorem size_reindex (order : Array LineId) (positions : Array (Option Nat)) (pos : Nat) :
    (reindex order positions pos).size = positions.size := by
  fun_induction reindex order positions pos with
  | case1 positions pos h ih => simpa using ih
  | case2 => rfl

theorem reindex_of_not_mem {order : Array LineId} {positions : Array (Option Nat)} {pos : Nat}
    {id : LineId} (h : ∀ q : Nat, pos ≤ q → order[q]? ≠ some id) :
    (reindex order positions pos)[id]? = positions[id]? := by
  fun_induction reindex order positions pos with
  | case1 positions pos hlt ih =>
    rw [ih fun q hq => h q (by omega)]
    have hne : order[pos] ≠ id := by
      intro he
      exact h pos (Nat.le_refl _) (by rw [Array.getElem?_eq_getElem hlt, he])
    exact Array.getElem?_setIfInBounds_ne hne
  | case2 => rfl

theorem reindex_of_mem {order : Array LineId} {positions : Array (Option Nat)} {pos q : Nat}
    {id : LineId} (hnd : order.toList.Nodup) (hle : pos ≤ q) (hq : order[q]? = some id)
    (hid : id < positions.size) : (reindex order positions pos)[id]? = some (some q) := by
  fun_induction reindex order positions pos with
  | case1 positions pos hlt ih =>
    by_cases he : pos = q
    · subst he
      rw [Array.getElem?_eq_getElem hlt] at hq
      simp only [Option.some.injEq] at hq
      -- no later place has this handle, so what is recorded here stays
      rw [reindex_of_not_mem, hq]
      · simp [hid]
      · intro q' hq' h
        have := place_unique hnd h ((Array.getElem?_eq_getElem hlt).trans (congrArg some hq))
        omega
    · exact ih (by omega) (by simpa using hid)
  | case2 positions pos hge =>
    have := (Array.getElem?_eq_some_iff.1 hq).1
    omega

/-- Recording from `pos` on is enough if the index is right before `pos` and knows no handle outside
the sequence. -/
theorem valid_reindex {store : Array Line} {order : Array LineId}
    {positions : Array (Option Nat)} {pos : Nat} (hsize : positions.size = store.size)
    (hnd : order.toList.Nodup) (hlt : ∀ id ∈ order.toList, id < store.size)
    (hlow : ∀ (q : Nat) (id : LineId), q < pos → order[q]? = some id →
      positions[id]? = some (some q))
    (hout : ∀ id, id ∉ order.toList → positions.getD id none = none) :
    Valid ⟨store, order, reindex order positions pos⟩ := by
  have hin : ∀ (q : Nat) (id : LineId), order[q]? = some id →
      (reindex order positions pos)[id]? = some (some q) := by
    intro q id hq
    have hmem : id ∈ order.toList := by
      apply List.mem_of_getElem? (i := q)
      simpa using hq
    by_cases hle : pos ≤ q
    · exact reindex_of_mem hnd hle hq (by rw [hsize]; exact hlt id hmem)
    · rw [reindex_of_not_mem, hlow q id (by omega) hq]
      intro q' hq' h
      have := place_unique hnd hq h
      omega
  refine ⟨by simpa [size_reindex] using hsize, fun id q => ?_⟩
  simp only [position, ids, Array.getElem?_toList, Array.getD_eq_getD_getElem?]
  constructor
  · intro h
    by_cases hmem : id ∈ order.toList
    · obtain ⟨q', hq'⟩ := List.getElem?_of_mem hmem
      simp only [Array.getElem?_toList] at hq'
      rw [hin q' id hq'] at h
      simp only [Option.getD_some, Option.some.injEq] at h
      rw [← h]
      exact hq'
    · have hnone := hout id hmem
      rw [Array.getD_eq_getD_getElem?] at hnone
      rw [reindex_of_not_mem, hnone] at h
      · cases h
      · intro q' _ h'
        apply hmem
        apply List.mem_of_getElem? (i := q')
        simpa using h'
  · intro h
    rw [hin q id h]
    rfl

/-! ## Operations on the sequence -/

theorem ids_insert (p : Program) (pos : Nat) (l : Line) :
    (p.insert pos l).ids = p.ids.insertIdx pos p.nextId := by
  simp only [insert, ids, nextId]
  obtain ⟨order⟩ := p.order
  rw [List.insertIdxIfInBounds_toArray]

theorem ids_removeAt (p : Program) (pos : Nat) : (p.removeAt pos).ids = p.ids.eraseIdx pos := by
  unfold removeAt
  split
  · rename_i h
    rw [List.eraseIdx_of_length_le]
    simpa [ids] using h
  · simp [ids]

theorem ids_retain (p : Program) (keep : Line → Bool) :
    (p.retain keep).ids = p.ids.filter fun id => keep (p.line id) := by
  simp [retain, ids]

theorem ids_modify (p : Program) (id : LineId) (f : Line → Line) : (p.modify id f).ids = p.ids :=
  rfl

theorem nextId_insert (p : Program) (pos : Nat) (l : Line) :
    (p.insert pos l).nextId = p.nextId + 1 := by
  simp [nextId, insert]

theorem nextId_removeId (p : Program) (id : LineId) : (p.removeId id).nextId = p.nextId := by
  unfold removeId removeAt
  split
  · rfl
  · split <;> rfl

theorem nextId_modify (p : Program) (id : LineId) (f : Line → Line) :
    (p.modify id f).nextId = p.nextId := by
  simp [nextId, modify]

theorem size_insert {p : Program} {pos : Nat} (hpos : pos ≤ p.size) (l : Line) :
    (p.insert pos l).size = p.size + 1 := by
  have hlen : ∀ q : Program, q.size = q.ids.length := fun q => by simp [ids, size]
  rw [hlen, ids_insert, List.length_insertIdx, if_pos (hlen p ▸ hpos), ← hlen]

theorem line_insert_of_ne (p : Program) (pos : Nat) (l : Line) {id : LineId} (h : id ≠ p.nextId) :
    (p.insert pos l).line id = p.line id := by
  have hne : id ≠ p.store.size := h
  simp [line, line?, insert, Array.getElem?_push, hne]

theorem line_insert_nextId (p : Program) (pos : Nat) (l : Line) :
    (p.insert pos l).line p.nextId = l := by
  simp [line, line?, insert, nextId]

theorem line_removeAt (p : Program) (pos : Nat) (id : LineId) :
    (p.removeAt pos).line id = p.line id := by
  unfold removeAt
  split <;> rfl

theorem line_retain (p : Program) (keep : Line → Bool) (id : LineId) :
    (p.retain keep).line id = p.line id := rfl

theorem line_modify_of_ne (p : Program) {id id' : LineId} (f : Line → Line) (h : id ≠ id') :
    (p.modify id f).line id' = p.line id' := by
  simp [line, line?, modify, Array.getElem?_modify, h]

theorem line_modify_self (p : Program) {id : LineId} (f : Line → Line) (h : id < p.nextId) :
    (p.modify id f).line id = f (p.line id) := by
  have hlt : id < p.store.size := h
  simp [line, line?, modify, Array.getElem_modify, hlt]

/-! ## Operations keep the index right -/

theorem valid_empty : Valid {} := by
  refine ⟨rfl, fun id pos => ?_⟩
  simp [position, ids]

theorem valid_insert {p : Program} (hp : p.Valid) {pos : Nat} (hpos : pos ≤ p.size) (l : Line) :
    (p.insert pos l).Valid := by
  have hids := ids_insert p pos l
  have hlen : pos ≤ p.ids.length := by simpa [ids, size] using hpos
  apply valid_reindex
  · simp [hp.indexed]
  · show (p.insert pos l).ids.Nodup
    rw [hids]
    exact (List.perm_insertIdx _ _ hlen).nodup_iff.2
      (List.nodup_cons.2 ⟨hp.nextId_not_mem, hp.nodup⟩)
  · show ∀ id ∈ (p.insert pos l).ids, _
    intro id hid
    rw [hids, List.mem_insertIdx hlen] at hid
    rw [Array.size_push]
    rcases hid with rfl | hid
    · exact Nat.lt_succ_self _
    · exact Nat.lt_succ_of_lt (hp.lt_nextId hid)
  · intro q id hq h
    have h' : (p.insert pos l).ids[q]? = some id := by
      rw [← h]
      exact Array.getElem?_toList
    rw [hids, List.getElem?_insertIdx_of_lt hq] at h'
    have hplace := hp.getElem?_positions h'
    have hlt := (Array.getElem?_eq_some_iff.1 hplace).1
    rw [Array.getElem?_push, if_neg (Nat.ne_of_lt hlt)]
    exact hplace
  · intro id hid
    have hid' : id ∉ p.ids := by
      intro h
      apply hid
      show id ∈ (p.insert pos l).ids
      rw [hids, List.mem_insertIdx hlen]
      exact Or.inr h
    have hnone := hp.position_eq_none hid'
    simp only [position, Array.getD_eq_getD_getElem?, Array.getElem?_push] at hnone ⊢
    split
    · rfl
    · exact hnone

theorem push_eq_insert {p : Program} (hp : p.Valid) (l : Line) : p.push l = p.insert p.size l := by
  have h : p.order.insertIdxIfInBounds p.order.size p.store.size = p.order.push p.store.size := by
    simp [Array.insertIdxIfInBounds]
  simp only [push, insert, size, h, mk.injEq, true_and]
  rw [reindex, dif_pos (by simp), reindex, dif_neg (by simp)]
  simp only [Array.getElem_push_eq]
  rw [← hp.indexed]
  apply Array.ext_getElem?
  intro i
  rw [Array.getElem?_setIfInBounds, Array.getElem?_push, Array.getElem?_push, Array.size_push]
  by_cases hi : p.positions.size = i
  · simp [hi]
  · simp [hi, Ne.symm hi]

theorem valid_push {p : Program} (hp : p.Valid) (l : Line) : (p.push l).Valid := by
  rw [push_eq_insert hp]
  exact valid_insert hp (Nat.le_refl _) l

theorem valid_removeAt {p : Program} (hp : p.Valid) (pos : Nat) : (p.removeAt pos).Valid := by
  have hids : (p.order.eraseIdxIfInBounds pos).toList = p.ids.eraseIdx pos :=
    Array.toList_eraseIdxIfInBounds
  unfold removeAt
  split
  · exact hp
  rename_i id hid
  have hmem : p.ids[pos]? = some id := by simpa [ids] using hid
  apply valid_reindex
  · simp [hp.indexed]
  · exact hids ▸ hp.nodup.eraseIdx pos
  · intro id' h
    exact hp.lt_nextId (List.mem_of_mem_eraseIdx (hids ▸ h))
  · intro q id' hq h
    have h' : (p.ids.eraseIdx pos)[q]? = some id' := by
      rw [← hids]
      exact Array.getElem?_toList.trans h
    have hne := ((hp.mem_eraseIdx hmem).1 (List.mem_of_getElem? h')).1
    rw [List.getElem?_eraseIdx_of_lt hq] at h'
    rw [Array.getElem?_setIfInBounds_ne hne.symm]
    exact hp.getElem?_positions h'
  · intro id' h
    rw [Array.getD_eq_getD_getElem?]
    by_cases he : id = id'
    · subst he
      rw [Array.getElem?_setIfInBounds_self]
      split <;> rfl
    · rw [Array.getElem?_setIfInBounds_ne he, ← Array.getD_eq_getD_getElem?]
      apply hp.position_eq_none
      intro hin
      rw [hids] at h
      exact h ((hp.mem_eraseIdx hmem).2 ⟨Ne.symm he, hin⟩)

theorem valid_removeId {p : Program} (hp : p.Valid) (id : LineId) : (p.removeId id).Valid := by
  unfold removeId
  split
  · exact hp
  · exact valid_removeAt hp _

/-- A line that stands before the one that is taken out stays where it is. -/
theorem position_removeId_of_lt {p : Program} (hp : p.Valid) {id id' : LineId} {q q' : Nat}
    (h : p.position id = some q) (h' : p.position id' = some q') (hlt : q < q') :
    (p.removeId id').position id = some q := by
  rw [(valid_removeId hp id').position_iff, removeId, h', ids_removeAt,
    List.getElem?_eraseIdx_of_lt hlt]
  exact (hp.position_iff id q).1 h

theorem foldl_drop (drop : LineId → Bool) (id : LineId) :
    ∀ (ids : List LineId) (positions : Array (Option Nat)),
      (ids.foldl
        (fun positions id => if drop id then positions else positions.setIfInBounds id none)
        positions).getD id none =
      if id ∈ ids ∧ drop id = false then none else positions.getD id none
  | [], positions => by simp
  | id' :: ids, positions => by
    rw [List.foldl_cons, foldl_drop drop id ids]
    by_cases he : id' = id
    · subst he
      cases hd : drop id' <;> simp [Array.getD_eq_getD_getElem?, Array.getElem?_setIfInBounds]
      split <;> simp_all
    · cases hd : drop id' <;> simp [Array.getD_eq_getD_getElem?, he, Ne.symm he]

theorem size_foldl_drop (drop : LineId → Bool) :
    ∀ (ids : List LineId) (positions : Array (Option Nat)),
      (ids.foldl
        (fun positions id => if drop id then positions else positions.setIfInBounds id none)
        positions).size = positions.size
  | [], _ => rfl
  | id :: ids, positions => by
    rw [List.foldl_cons, size_foldl_drop drop ids]
    cases drop id <;> simp

theorem valid_retain {p : Program} (hp : p.Valid) (keep : Line → Bool) : (p.retain keep).Valid := by
  have hids := ids_retain p keep
  unfold retain
  rw [← Array.foldl_toList]
  apply valid_reindex
  · rw [size_foldl_drop]
    exact hp.indexed
  · show (p.retain keep).ids.Nodup
    rw [hids]
    exact hp.nodup.filter _
  · show ∀ id ∈ (p.retain keep).ids, _
    intro id h
    rw [hids] at h
    exact hp.lt_nextId (List.mem_filter.1 h).1
  · intro q id hq
    omega
  · show ∀ id, id ∉ (p.retain keep).ids → _
    intro id h
    rw [hids, List.mem_filter] at h
    rw [foldl_drop fun id => keep (p.line id)]
    split
    · rfl
    · rename_i hc
      apply hp.position_eq_none
      intro hin
      cases hk : keep (p.line id)
      · exact hc ⟨hin, hk⟩
      · exact h ⟨hin, hk⟩

theorem retain_eq_self {p : Program} (hp : p.Valid) {keep : Line → Bool}
    (h : ∀ l ∈ p.lines, keep l = true) : p.retain keep = p := by
  refine (valid_retain hp keep).eq_of_order hp rfl (Array.filter_eq_self.2 fun id hid => ?_)
  exact h _ (List.mem_map_of_mem (Array.mem_toList_iff.2 hid))

theorem valid_modify {p : Program} (hp : p.Valid) (id : LineId) (f : Line → Line) :
    (p.modify id f).Valid := ⟨by simpa [modify] using hp.indexed, hp.position_iff⟩

theorem valid_ofLines (lines : List Line) : (ofLines lines).Valid := by
  have h : ∀ (lines : List Line) (p : Program), p.Valid → (lines.foldl push p).Valid := by
    intro lines
    induction lines with
    | nil => exact fun p hp => hp
    | cons l lines ih => exact fun p hp => ih _ (valid_push hp l)
  exact h lines {} valid_empty

/-! ## What operations do to the entries -/

theorem map_line_eq_entries {p q : Program} {ids : List LineId}
    (h : ∀ id ∈ ids, q.line id = p.line id) :
    ids.map (fun id => (id, q.line id)) = ids.map fun id => (id, p.line id) :=
  List.map_congr_left fun id hid => by rw [h id hid]

theorem entries_insert {p : Program} (hp : p.Valid) (pos : Nat) (l : Line) :
    (p.insert pos l).entries = p.entries.insertIdx pos (p.nextId, l) := by
  unfold entries
  rw [ids_insert, List.map_insertIdx, line_insert_nextId, map_line_eq_entries (p := p)]
  intro id hid
  exact line_insert_of_ne p pos l (Nat.ne_of_lt (hp.lt_nextId hid))

theorem insertIdx_length_append {α : Type} (A B : List α) (x : α) :
    (A ++ B).insertIdx A.length x = A ++ x :: B := by
  induction A with
  | nil => rfl
  | cons a A ih => simp [ih]

theorem entries_insert_append {p : Program} (hp : p.Valid) (l : Line)
    {A B : List (LineId × Line)} (h : p.entries = A ++ B) :
    (p.insert A.length l).entries = A ++ (p.nextId, l) :: B := by
  rw [entries_insert hp, h, insertIdx_length_append]

theorem entries_push {p : Program} (hp : p.Valid) (l : Line) :
    (p.push l).entries = p.entries ++ [(p.nextId, l)] := by
  rw [push_eq_insert hp, ← length_entries, entries_insert_append hp l (List.append_nil _).symm]

theorem entries_removeAt (p : Program) (pos : Nat) :
    (p.removeAt pos).entries = p.entries.eraseIdx pos := by
  unfold entries
  rw [ids_removeAt, List.eraseIdx_map, map_line_eq_entries (p := p)]
  exact fun id _ => line_removeAt p pos id

theorem entries_removeId {p : Program} (hp : p.Valid) (id : LineId) :
    (p.removeId id).entries = p.entries.filter (·.1 ≠ id) := by
  unfold removeId
  split
  · rename_i hnone
    symm
    rw [List.filter_eq_self]
    intro e he
    simp only [decide_eq_true_eq]
    rintro rfl
    obtain ⟨pos, hpos⟩ := List.getElem?_of_mem (mem_ids_of_mem_entries he)
    rw [(hp.position_iff _ _).2 hpos] at hnone
    cases hnone
  · rename_i pos hpos
    obtain ⟨hlt, rfl⟩ := List.getElem?_eq_some_iff.1 ((hp.position_iff id pos).1 hpos)
    unfold entries
    rw [ids_removeAt, ← hp.nodup.erase_getElem pos hlt, hp.nodup.erase_eq_filter, List.filter_map,
      map_line_eq_entries (p := p)]
    · congr 1
      apply List.filter_congr
      intro id' _
      by_cases he : id' = p.ids[pos] <;> simp [he]
    · exact fun id _ => line_removeAt p pos id

theorem entries_retain (p : Program) (keep : Line → Bool) :
    (p.retain keep).entries = p.entries.filter fun e => keep e.2 := by
  unfold entries
  rw [ids_retain, List.filter_map, map_line_eq_entries (p := p)]
  · rfl
  · exact fun id _ => line_retain p keep id

theorem entries_modify {p : Program} (hp : p.Valid) (id : LineId) (f : Line → Line) :
    (p.modify id f).entries = p.entries.map fun e => if e.1 = id then (e.1, f e.2) else e := by
  unfold entries
  rw [ids_modify, List.map_map]
  apply List.map_congr_left
  intro id' hid
  by_cases he : id' = id
  · subst he
    simp [line_modify_self p f (hp.lt_nextId hid)]
  · simp [line_modify_of_ne p f (Ne.symm he), he]

/-! ## Operations on one entry among others -/

theorem Valid.nodup_keys {p : Program} (hp : p.Valid) {A B : List (LineId × Line)}
    {e : LineId × Line} (h : p.entries = A ++ e :: B) :
    (∀ x ∈ A, x.1 ≠ e.1) ∧ ∀ x ∈ B, x.1 ≠ e.1 := by
  have hnd := hp.nodup
  rw [ids_eq_map_entries, h, List.map_append, List.map_cons, List.nodup_append,
    List.nodup_cons] at hnd
  obtain ⟨-, ⟨hB, -⟩, hA⟩ := hnd
  refine ⟨fun x hx => hA _ (List.mem_map_of_mem hx) _ List.mem_cons_self, fun x hx he => ?_⟩
  exact hB (he ▸ List.mem_map_of_mem hx)

theorem entries_removeId_append {p : Program} (hp : p.Valid) {A B : List (LineId × Line)}
    {e : LineId × Line} (h : p.entries = A ++ e :: B) : (p.removeId e.1).entries = A ++ B := by
  obtain ⟨hA, hB⟩ := hp.nodup_keys h
  rw [entries_removeId hp, h, List.filter_append, List.filter_cons,
    List.filter_eq_self.2 fun x hx => by simpa using hA x hx,
    List.filter_eq_self.2 fun x hx => by simpa using hB x hx]
  simp

theorem entries_modify_append {p : Program} (hp : p.Valid) {A B : List (LineId × Line)}
    {e : LineId × Line} (h : p.entries = A ++ e :: B) (f : Line → Line) :
    (p.modify e.1 f).entries = A ++ (e.1, f e.2) :: B := by
  obtain ⟨hA, hB⟩ := hp.nodup_keys h
  have hid : ∀ C : List (LineId × Line), (∀ x ∈ C, x.1 ≠ e.1) →
      C.map (fun x => if x.1 = e.1 then (x.1, f x.2) else x) = C := by
    intro C hC
    rw [List.map_congr_left fun x hx => if_neg (hC x hx), List.map_id']
  rw [entries_modify hp, h, List.map_append, List.map_cons, hid A hA, hid B hB, if_pos rfl]

/-! ## Changing every line of the sequence -/

theorem foldl_modify (f : Nat → Line → Line) (id : LineId) :
    ∀ (updates : List (LineId × Nat)) (p : Program), (updates.map Prod.fst).Nodup →
      (∀ k, (id, k) ∈ updates → id < p.nextId →
        (updates.foldl (fun p (id, k) => p.modify id (f k)) p).line id = f k (p.line id)) ∧
      (id ∉ updates.map Prod.fst →
        (updates.foldl (fun p (id, k) => p.modify id (f k)) p).line id = p.line id)
  | [], p, _ => by simp
  | (id', k') :: updates, p, hnd => by
    simp only [List.map_cons, List.nodup_cons] at hnd
    obtain ⟨hin, hout⟩ := foldl_modify f id updates (p.modify id' (f k')) hnd.2
    refine ⟨fun k hk hlt => ?_, fun hnot => ?_⟩
    · rw [List.foldl_cons]
      rcases List.mem_cons.1 hk with he | hk
      · simp only [Prod.mk.injEq] at he
        obtain ⟨rfl, rfl⟩ := he
        rw [hout hnd.1, line_modify_self p _ hlt]
      · have hne : id' ≠ id := by
          rintro rfl
          exact hnd.1 (List.mem_map.2 ⟨_, hk, rfl⟩)
        rw [hin k hk (by simpa [nextId, modify] using hlt), line_modify_of_ne p _ hne]
    · simp only [List.map_cons, List.mem_cons, not_or] at hnot
      rw [List.foldl_cons, hout hnot.2, line_modify_of_ne p _ (Ne.symm hnot.1)]

theorem ids_modifyLive (p : Program) (f : Nat → Line → Line) : (p.modifyLive f).ids = p.ids := by
  have h : ∀ (updates : List (LineId × Nat)) (p : Program),
      (updates.foldl (fun p (id, k) => p.modify id (f k)) p).ids = p.ids := by
    intro updates
    induction updates with
    | nil => exact fun p => rfl
    | cons u updates ih => exact fun p => ih _
  exact h _ p

theorem valid_modifyLive {p : Program} (hp : p.Valid) (f : Nat → Line → Line) :
    (p.modifyLive f).Valid := by
  have h : ∀ (updates : List (LineId × Nat)) (p : Program), p.Valid →
      (updates.foldl (fun p (id, k) => p.modify id (f k)) p).Valid := by
    intro updates
    induction updates with
    | nil => exact fun p hp => hp
    | cons u updates ih => exact fun p hp => ih _ (valid_modify hp _ _)
  exact h _ p hp

theorem Valid.mem_liveIds {p : Program} (hp : p.Valid) {id : LineId} :
    id ∈ p.liveIds ↔ id ∈ p.ids := by
  simp only [liveIds, List.mem_filter, List.mem_range, Option.isSome_iff_exists]
  constructor
  · rintro ⟨-, pos, hpos⟩
    exact List.mem_of_getElem? ((hp.position_iff id pos).1 hpos)
  · intro h
    obtain ⟨pos, hpos⟩ := List.getElem?_of_mem h
    exact ⟨hp.lt_nextId h, pos, (hp.position_iff id pos).2 hpos⟩

theorem nodup_liveIds (p : Program) : p.liveIds.Nodup := List.nodup_range.filter _

theorem nextId_modifyLive (p : Program) (f : Nat → Line → Line) :
    (p.modifyLive f).nextId = p.nextId := by
  have h : ∀ (updates : List (LineId × Nat)) (p : Program),
      (updates.foldl (fun p (id, k) => p.modify id (f k)) p).nextId = p.nextId := by
    intro updates
    induction updates with
    | nil => exact fun p => rfl
    | cons u updates ih => exact fun p => (ih _).trans (nextId_modify ..)
  exact h _ p

/-- Every line of the sequence is changed, and once; any other line stays. -/
theorem line_modifyLive {p : Program} (hp : p.Valid) (f : Nat → Line → Line) (id : LineId) :
    (p.modifyLive f).line id =
      if id ∈ p.ids then f (p.liveIds.idxOf id) (p.line id) else p.line id := by
  have hnd : (p.liveIds.zipIdx.map Prod.fst).Nodup := by
    rw [List.zipIdx_map_fst]
    exact p.nodup_liveIds
  obtain ⟨hin, hout⟩ := foldl_modify f id p.liveIds.zipIdx p hnd
  split
  · rename_i hid
    have hk := List.getElem?_idxOf (hp.mem_liveIds.2 hid)
    exact hin _ (List.mk_mem_zipIdx_iff_getElem?.2 hk) (hp.lt_nextId hid)
  · rename_i hid
    apply hout
    rw [List.zipIdx_map_fst, hp.mem_liveIds]
    exact hid

theorem entries_modifyLive {p : Program} (hp : p.Valid) (f : Nat → Line → Line) :
    (p.modifyLive f).entries =
      p.entries.map fun e => (e.1, f (p.liveIds.idxOf e.1) e.2) := by
  unfold entries
  rw [ids_modifyLive, List.map_map]
  apply List.map_congr_left
  intro id hid
  rw [line_modifyLive hp, if_pos hid]
  rfl

/-! ## The program of a list of lines -/

theorem lines_ofLines (lines : List Line) : (ofLines lines).lines = lines := by
  have h : ∀ (lines : List Line) (p : Program), p.Valid →
      (lines.foldl push p).lines = p.lines ++ lines := by
    intro lines
    induction lines with
    | nil => simp
    | cons l lines ih =>
      intro p hp
      rw [List.foldl_cons, ih _ (valid_push hp l), lines_eq_map_entries, entries_push hp,
        lines_eq_map_entries]
      simp
  rw [ofLines, h lines {} valid_empty]
  rfl

end CompactRisc.Program
