import CompactRisc.Label
import CompactRisc.Proofs.Fallible
import CompactRisc.Proofs.Sequence

/-!
# Declarations

What a list of lines declares, said without handles. The lines that are no declarations are the
body. A declaration stands for the next line of the body, whose number in the body is the number
of body lines before the declaration.

Results:
* `Label.ofProgram_eq_ok`: reading the labels of a program succeeds with the declarations of its
  lines, each on the handle of the body line that it stands for, or not at all.
* `Label.exists_ofProgram_eq_ok`: it succeeds exactly if the declarations are well formed, have
  different names and are followed by a body line.
-/
namespace CompactRisc

/-- A declaration, with the number in the body of the line that it stands for. -/
structure Declaration where
  name : String
  target : Nat
  /-- Number of the source line. -/
  line : Nat
  deriving DecidableEq, Repr

/-- The label of a declaration, if `ids` are the handles of the body. -/
def Declaration.label (ids : List LineId) (δ : Declaration) : Label :=
  ⟨δ.name, ids.getD δ.target 0, δ.line⟩

/-- The lines that are no declarations. -/
def body (d : Dialect) (lines : List Line) : List Line := lines.filter (!Label.declares d ·)

/-- The declarations on a list of lines that stands after `k` lines of the body. -/
def declarations (d : Dialect) : Nat → List Line → List Declaration
  | _, [] => []
  | k, l :: lines =>
    if Label.declares d l then ⟨l.first, k, l.source⟩ :: declarations d k lines
    else declarations d (k + 1) lines

def declaredNames (d : Dialect) (lines : List Line) : List String :=
  (lines.filter (Label.declares d)).map Line.first

theorem declarations_succ (d : Dialect) (lines : List Line) (k : Nat) :
    declarations d (k + 1) lines =
      (declarations d k lines).map fun δ => { δ with target := δ.target + 1 } := by
  induction lines generalizing k with
  | nil => rfl
  | cons l lines ih =>
    simp only [declarations]
    split
    · simp [ih]
    · exact ih (k + 1)

theorem map_declarations (d : Dialect) (lines : List Line) (k : Nat) :
    (declarations d k lines).map (fun δ => (δ.name, δ.line)) =
      (lines.filter (Label.declares d)).map fun l => (l.first, l.source) := by
  induction lines generalizing k with
  | nil => rfl
  | cons l lines ih =>
    simp only [declarations, List.filter_cons]
    split
    · simpa using ih k
    · exact ih (k + 1)

theorem map_name_declarations (d : Dialect) (lines : List Line) (k : Nat) :
    (declarations d k lines).map Declaration.name = declaredNames d lines := by
  simpa [Function.comp_def, declaredNames] using
    congrArg (List.map Prod.fst) (map_declarations d lines k)

/-- With a body line at the end, a declaration has a body line behind it. -/
theorem body_pos_of_declares {d : Dialect} {l : Line} {lines : List Line}
    (hlast : ∀ l' ∈ (l :: lines).getLast?, Label.declares d l' = false)
    (hl : Label.declares d l = true) : 0 < (body d lines).length := by
  cases hg : lines.getLast? with
  | none =>
    obtain rfl := List.getLast?_eq_none_iff.1 hg
    rw [hlast l rfl] at hl
    cases hl
  | some l' =>
    have hmem : l' ∈ body d lines := by
      refine List.mem_filter.2 ⟨List.mem_of_getLast? hg, ?_⟩
      simp [hlast l' (by simp [List.getLast?_cons, hg])]
    exact List.length_pos_of_mem hmem

theorem target_lt_of_mem_declarations {d : Dialect} {lines : List Line} {k : Nat}
    {δ : Declaration} (hlast : ∀ l ∈ lines.getLast?, Label.declares d l = false)
    (h : δ ∈ declarations d k lines) : δ.target < k + (body d lines).length := by
  induction lines generalizing k with
  | nil => simp [declarations] at h
  | cons l lines ih =>
    have hlast' : ∀ l ∈ lines.getLast?, Label.declares d l = false := by
      intro l' hl'
      apply hlast
      cases lines with
      | nil => simp at hl'
      | cons l₂ lines => simpa [List.getLast?_cons] using hl'
    simp only [declarations] at h
    split at h
    · rename_i hl
      have hb : body d (l :: lines) = body d lines := by simp [body, hl]
      rw [hb]
      rcases List.mem_cons.1 h with rfl | h
      · exact Nat.lt_add_of_pos_right (body_pos_of_declares hlast hl)
      · exact ih hlast' h
    · rename_i hl
      have hb : body d (l :: lines) = l :: body d lines := by simp [body, hl]
      have := ih hlast' h
      rw [hb, List.length_cons]
      omega

/-! ## Reading the labels of a program -/

namespace Label

theorem strip_ids (d : Dialect) (p : Program) :
    (strip d p).ids = p.ids.filter fun id => !declares d (p.line id) :=
  Program.ids_retain p _

theorem strip_lines (d : Dialect) (p : Program) : (strip d p).lines = body d p.lines := by
  rw [Program.lines_eq_map_entries, strip, Program.entries_retain, Program.lines_eq_map_entries,
    body, List.filter_map]
  rfl

/-- A declaration that `Scan.read` takes if its name is new. -/
def WellFormed (d : Dialect) (l : Line) : Prop := l.tokens.length = 1 ∧ l.first ≠ d.labelMark

theorem read_of_body {d : Dialect} {p : Program} (s : Scan) {id : LineId}
    (h : declares d (p.line id) = false) : s.read d p id = .ok (s.bind id) := by
  simp [Scan.read, h]

theorem read_of_declares {d : Dialect} {p : Program} {s s' : Scan} {id : LineId}
    (h : declares d (p.line id) = true) :
    s.read d p id = .ok s' ↔
      WellFormed d (p.line id) ∧ s.declared (p.line id).first = false ∧
        s' = { s with pending := s.pending ++ [((p.line id).first, (p.line id).source)] } := by
  unfold WellFormed
  simp only [Scan.read, h, Bool.not_true, Bool.false_eq_true, if_false]
  split
  · simp_all
  split
  · simp_all
  split
  · simp_all
  · rename_i h1 h2 h3
    simp only [Except.ok.injEq]
    constructor
    · rintro rfl
      exact ⟨⟨by simpa using h1, h2⟩, by simpa using h3, rfl⟩
    · rintro ⟨-, -, rfl⟩
      rfl

theorem bind_labels (s : Scan) (id : LineId) :
    (s.bind id).labels.toList = s.labels.toList ++ s.pending.map fun x => ⟨x.1, id, x.2⟩ := by
  have h : ∀ (pending : List (String × Nat)) (labels : Array Label),
      (pending.foldl (fun labels x => labels.push ⟨x.1, id, x.2⟩) labels).toList =
        labels.toList ++ pending.map fun x => ⟨x.1, id, x.2⟩ := by
    intro pending
    induction pending with
    | nil => simp
    | cons x pending ih =>
      intro labels
      rw [List.foldl_cons, ih]
      simp
  exact h s.pending s.labels

theorem declared_iff (s : Scan) (name : String) :
    s.declared name = true ↔ name ∈ s.labels.toList.map Label.name ++ s.pending.map Prod.fst := by
  simp only [Scan.declared, Bool.or_eq_true, ← Array.any_toList, List.any_eq_true, beq_iff_eq,
    List.mem_append, List.mem_map]

/-- A name is new after a declaration if it was new before and is not the name declared. -/
theorem declared_waiting (s : Scan) (x : String × Nat) (name : String) :
    Scan.declared { s with pending := s.pending ++ [x] } name = false ↔
      s.declared name = false ∧ name ≠ x.1 := by
  rw [← Bool.not_eq_true, ← Bool.not_eq_true, declared_iff, declared_iff]
  simp only [List.map_append, List.map_cons, List.map_nil, List.mem_append, List.mem_singleton,
    not_or]
  tauto

theorem declared_bind (s : Scan) (id : LineId) (name : String) :
    (s.bind id).declared name = s.declared name := by
  rw [Bool.eq_iff_iff, declared_iff, declared_iff, bind_labels]
  simp [Scan.bind]

/-- A scan that ends with no label waiting has bound the waiting labels and the declarations on the
way, in order. -/
theorem labels_of_scan {d : Dialect} {p : Program} :
    ∀ {ids : List LineId} {s s' : Scan}, ids.foldlM (Scan.read d p) s = .ok s' → s'.pending = [] →
      s'.labels.toList = s.labels.toList ++
        (s.pending.map (fun x => (⟨x.1, 0, x.2⟩ : Declaration)) ++
          declarations d 0 (ids.map p.line)).map
            (Declaration.label (ids.filter fun id => !declares d (p.line id)))
  | [], s, s', h, hs => by
    cases h
    simp [hs, declarations]
  | id :: ids, s, s', h, hs => by
    rw [List.foldlM_cons] at h
    obtain ⟨s₁, h₁, h⟩ := bind_eq_ok.1 h
    rw [labels_of_scan h hs]
    cases hd : declares d (p.line id) with
    | true =>
      obtain ⟨-, -, rfl⟩ := (read_of_declares hd).1 h₁
      simp [declarations, hd]
    | false =>
      rw [read_of_body s hd] at h₁
      cases h₁
      -- the waiting labels get the number 0 in the body, and the other numbers move up by one
      rw [bind_labels]
      simp [declarations, hd, declarations_succ, Scan.bind, Declaration.label, Function.comp_def]

/-- A scan gets through if the declarations are well formed and their names new and different. -/
theorem exists_scan {d : Dialect} {p : Program} :
    ∀ {ids : List LineId} {s : Scan},
      (∃ s', ids.foldlM (Scan.read d p) s = .ok s') ↔
        (∀ id ∈ ids, declares d (p.line id) = true → WellFormed d (p.line id)) ∧
          (declaredNames d (ids.map p.line)).Nodup ∧
            ∀ name ∈ declaredNames d (ids.map p.line), s.declared name = false
  | [], s => by simp [declaredNames]
  | id :: ids, s => by
    have hrun : (∃ s', (id :: ids).foldlM (Scan.read d p) s = .ok s') ↔
        ∃ s₁, s.read d p id = .ok s₁ ∧ ∃ s', ids.foldlM (Scan.read d p) s₁ = .ok s' := by
      simp only [List.foldlM_cons, bind_eq_ok]
      exact ⟨fun ⟨s', s₁, h₁, h⟩ => ⟨s₁, h₁, s', h⟩, fun ⟨s₁, h₁, s', h⟩ => ⟨s', s₁, h₁, h⟩⟩
    rw [hrun]
    cases hd : declares d (p.line id) with
    | true =>
      have hnames : declaredNames d ((id :: ids).map p.line) =
          (p.line id).first :: declaredNames d (ids.map p.line) := by
        simp [declaredNames, hd]
      simp only [read_of_declares hd, hnames, List.nodup_cons, List.forall_mem_cons, hd,
        forall_const]
      constructor
      · rintro ⟨s₁, ⟨hw, hnew, rfl⟩, h⟩
        obtain ⟨hall, hnd, hout⟩ := exists_scan.1 h
        simp only [declared_waiting] at hout
        exact ⟨⟨hw, hall⟩, ⟨fun hin => (hout _ hin).2 rfl, hnd⟩, hnew, fun n hn => (hout n hn).1⟩
      · rintro ⟨⟨hw, hall⟩, ⟨hnot, hnd⟩, hnew, hout⟩
        refine ⟨_, ⟨hw, hnew, rfl⟩, exists_scan.2 ⟨hall, hnd, fun n hn => ?_⟩⟩
        have hne : n ≠ (p.line id).first := fun he => hnot (he ▸ hn)
        exact (declared_waiting s _ n).2 ⟨hout n hn, hne⟩
    | false =>
      have hnames : declaredNames d ((id :: ids).map p.line) =
          declaredNames d (ids.map p.line) := by
        simp [declaredNames, hd]
      rw [read_of_body s hd, hnames, List.forall_mem_cons]
      simp only [Except.ok.injEq, exists_eq_left', exists_scan, declared_bind, hd,
        Bool.false_eq_true, false_imp_iff, true_and]

/-- Labels wait at the end of a scan exactly if the last line that it read declares one. -/
theorem pending_of_scan {d : Dialect} {p : Program} :
    ∀ {ids : List LineId} {s s' : Scan}, ids.foldlM (Scan.read d p) s = .ok s' →
      (s'.pending = [] ↔
        (ids = [] → s.pending = []) ∧ ∀ l ∈ (ids.map p.line).getLast?, declares d l = false)
  | [], s, s', h => by
    cases h
    simp
  | id :: ids, s, s', h => by
    rw [List.foldlM_cons] at h
    obtain ⟨s₁, h₁, h⟩ := bind_eq_ok.1 h
    rw [pending_of_scan h]
    cases ids with
    | nil =>
      cases hd : declares d (p.line id) with
      | true =>
        obtain ⟨-, -, rfl⟩ := (read_of_declares hd).1 h₁
        simp [hd]
      | false =>
        rw [read_of_body s hd] at h₁
        cases h₁
        simp [hd, Scan.bind]
    | cons id₂ ids => simp [List.getLast?_cons]

theorem ofProgram_eq_ok {d : Dialect} {p : Program} {labels : Array Label}
    (h : ofProgram d p = .ok labels) :
    labels.toList = (declarations d 0 p.lines).map (Declaration.label (strip d p).ids) := by
  obtain ⟨s, hs, h⟩ := bind_eq_ok.1 h
  have hpending : s.pending = [] ∧ s.labels = labels := by
    unfold Scan.finish at h
    split at h
    · rename_i hp
      cases h
      exact ⟨hp, rfl⟩
    · cases h
  rw [← hpending.2, labels_of_scan hs hpending.1, strip_ids]
  simp [Program.lines]

theorem exists_ofProgram_eq_ok {d : Dialect} {p : Program} :
    (∃ labels, ofProgram d p = .ok labels) ↔
      (∀ l ∈ p.lines, declares d l = true → WellFormed d l) ∧ (declaredNames d p.lines).Nodup ∧
        ∀ l ∈ p.lines.getLast?, declares d l = false := by
  have hfinish : ∀ s : Scan, (∃ labels, s.finish = .ok labels) ↔ s.pending = [] := by
    intro s
    unfold Scan.finish
    split <;> simp_all
  have hscan : (∃ s, p.ids.foldlM (Scan.read d p) {} = .ok s) ↔ _ := exists_scan
  have hnew : ∀ name, Scan.declared {} name = false := by simp [Scan.declared]
  simp only [hnew, implies_true, and_true] at hscan
  constructor
  · rintro ⟨labels, h⟩
    obtain ⟨s, hs, h⟩ := bind_eq_ok.1 h
    obtain ⟨hw, hnd⟩ := hscan.1 ⟨s, hs⟩
    refine ⟨?_, hnd, ((pending_of_scan hs).1 ((hfinish s).1 ⟨labels, h⟩)).2⟩
    simpa [Program.lines] using hw
  · rintro ⟨hw, hnd, hlast⟩
    obtain ⟨s, hs⟩ := hscan.2 ⟨by simpa [Program.lines] using hw, hnd⟩
    obtain ⟨labels, h⟩ := (hfinish s).2 ((pending_of_scan hs).2 ⟨fun _ => rfl, hlast⟩)
    exact ⟨labels, bind_eq_ok.2 ⟨s, hs, h⟩⟩

theorem target_lt {d : Dialect} {p : Program} {labels : Array Label}
    (h : ofProgram d p = .ok labels) :
    ∀ δ ∈ declarations d 0 p.lines, δ.target < (body d p.lines).length := by
  intro δ hδ
  have hlast := (exists_ofProgram_eq_ok.1 ⟨labels, h⟩).2.2
  simpa using target_lt_of_mem_declarations hlast hδ

theorem target_mem {d : Dialect} {p : Program} {labels : Array Label}
    (h : ofProgram d p = .ok labels) :
    ∀ label ∈ labels.toList, label.target ∈ (strip d p).ids := by
  intro label hlabel
  rw [ofProgram_eq_ok h] at hlabel
  obtain ⟨δ, hδ, rfl⟩ := List.mem_map.1 hlabel
  have hlt : δ.target < (strip d p).ids.length := by
    have := target_lt h δ hδ
    rwa [← strip_lines, Program.lines, List.length_map] at this
  simp [Declaration.label, hlt]

end Label

end CompactRisc
