import CompactRisc.Proofs.Acceptance
import CompactRisc.Proofs.Renumbering
import Mathlib.Data.List.DropRight

/-!
# The fault of a source

A source is checked in five phases. Each phase looks at one line after the other, at what stands
before and after it and at the names of the labels, and the first fault in the first phase that
finds one is the fault of the source. Nothing else is ever the reason for a refusal: no line that is
written on the way, no address and no handle.

Results:
* `Check.first_eq_some`, `Check.first_eq_none`: what the first fault on a list of lines is.
* `Defines.first_check`, `Label.first_check`: the phases that read the lines in order, with what
  they have read so far.
* `Program.first_references`, `Program.first_encoding`: the phases that look at each line by itself.
* `refusal?_assembleLines`: a source is refused with its fault, and only if it has one.
-/
namespace CompactRisc

/-- What is wrong with a line that stands between these lines before it and these after it. -/
abbrev Check := List Line → Line → List Line → Option Fault

namespace Check

/-- The first fault on a list of lines that comes after the lines `before`. -/
def first (check : Check) : List Line → List Line → Option Fault
  | _, [] => none
  | before, l :: after => (check before l after).or (first check (before ++ [l]) after)

def ofLine (f : Line → Option Fault) : Check := fun _ l _ => f l

theorem first_ofLine (f : Line → Option Fault) (lines before : List Line) :
    first (ofLine f) before lines = lines.findSome? f := by
  induction lines generalizing before with
  | nil => rfl
  | cons l lines ih =>
    rw [first, ih, List.findSome?_cons, ofLine]
    cases f l <;> rfl

theorem first_eq_none {check : Check} {before lines : List Line} :
    first check before lines = none ↔
      ∀ A l B, lines = A ++ l :: B → check (before ++ A) l B = none := by
  induction lines generalizing before with
  | nil => simp [first]
  | cons l lines ih =>
    rw [first, Option.or_eq_none_iff, ih]
    refine ⟨fun h A l' B he => ?_, fun h => ⟨?_, fun A l' B he => ?_⟩⟩
    · cases A with
      | nil =>
        cases he
        simpa using h.1
      | cons a A =>
        cases he
        simpa using h.2 A l' B rfl
    · simpa using h [] l lines rfl
    · simpa using h (l :: A) l' B (by rw [he]; rfl)

theorem first_eq_some {check : Check} {before lines : List Line} {e : Fault} :
    first check before lines = some e ↔
      ∃ A l B, lines = A ++ l :: B ∧ check (before ++ A) l B = some e ∧
        ∀ A' l' B', lines = A' ++ l' :: B' → A'.length < A.length →
          check (before ++ A') l' B' = none := by
  induction lines generalizing before with
  | nil => simp [first]
  | cons l lines ih =>
    rw [first, Option.or_eq_some_iff, ih]
    refine ⟨fun h => ?_, fun h => ?_⟩
    · rcases h with h | ⟨hnone, A, l', B, rfl, hcheck, hearlier⟩
      · exact ⟨[], l, lines, rfl, by simpa using h, fun A' _ _ _ hlt => absurd hlt (by simp)⟩
      · refine ⟨l :: A, l', B, rfl, by simpa using hcheck, fun A' l'' B' he hlt => ?_⟩
        cases A' with
        | nil =>
          cases he
          simpa using hnone
        | cons a A' =>
          rw [List.cons_append, List.cons.injEq] at he
          obtain ⟨rfl, he⟩ := he
          simpa using hearlier A' l'' B' he (by simpa using hlt)
    · obtain ⟨A, l', B, he, hcheck, hearlier⟩ := h
      cases A with
      | nil =>
        cases he
        exact Or.inl (by simpa using hcheck)
      | cons a A =>
        rw [List.cons_append, List.cons.injEq] at he
        obtain ⟨rfl, rfl⟩ := he
        refine Or.inr ⟨by simpa using hearlier [] l _ rfl (by simp), A, l', B, rfl,
          by simpa using hcheck, fun A' l'' B' he hlt => ?_⟩
        simpa using hearlier (l :: A') l'' B' (by rw [he]; rfl) (by simpa using hlt)

/-- A run that does what a check says at each step, and otherwise keeps up with the lines that it
has read, ends in the first fault or has read all lines. -/
theorem foldlM_first {σ α : Type} {step : σ → α → Except Fault σ} {check : Check}
    (line : α → Line) (P : List Line → σ → Prop)
    (hstep : ∀ before s a after, P before s →
      match check before (line a) after with
      | some e => step s a = .error e
      | none => ∃ s', step s a = .ok s' ∧ P (before ++ [line a]) s') :
    ∀ (as : List α) (before : List Line) (s : σ), P before s →
      match first check before (as.map line) with
      | some e => as.foldlM step s = .error e
      | none => ∃ s', as.foldlM step s = .ok s' ∧ P (before ++ as.map line) s'
  | [], before, s, h => ⟨s, rfl, by simpa using h⟩
  | a :: as, before, s, h => by
    have hnow := hstep before s a (as.map line) h
    rw [List.map_cons, first, List.foldlM_cons]
    cases hcheck : check before (line a) (as.map line) with
    | some e =>
      rw [hcheck] at hnow
      rw [Option.some_or, hnow]
      rfl
    | none =>
      rw [hcheck] at hnow
      obtain ⟨s', hs', hP⟩ := hnow
      have hrest := foldlM_first line P hstep as (before ++ [line a]) s' hP
      rw [← List.append_cons] at hrest
      rwa [Option.none_or, hs', ok_bind]

end Check

/-! ## The checks -/

/-- A define has a token and a replacement, and the token has not been defined before. -/
def Defines.check (d : Dialect) : Check := fun before l _ =>
  if d.isDefine l.first then
    if l.tokens.length ≠ 3 then some ⟨.defineArity d.defineKeyword l.text, l.source⟩
    else if l.tokens.getD 1 "" ∈ (table d before).map Prod.fst then
      some ⟨.defineTwice l.text, l.source⟩
    else none
  else none

/-- A declaration is a label by itself, with a name that has not been declared before. -/
def Label.check (d : Dialect) : Check := fun before l _ =>
  if declares d l then
    if l.tokens.length ≠ 1 then some ⟨.labelArity d.labelMark l.text, l.source⟩
    else if l.first = d.labelMark then some ⟨.labelNameless d.labelMark l.text, l.source⟩
    else if l.first ∈ declaredNames d before then some ⟨.labelTwice l.first, l.source⟩
    else none
  else none

/-- A declaration is followed by a line that is none. If not, this is said of the first declaration
that has no other line behind it. -/
def Label.checkTrailing (d : Dialect) : Check := fun before l after =>
  if (l :: after).all (declares d) && !before.getLast?.any (declares d) then
    some ⟨.labelDangling l.first, l.source⟩
  else none

/-- The label that a line of the body mentions is declared, and the line can use it. -/
def Line.referenceFault? (d : Dialect) (names : List String) (l : Line) : Option Fault :=
  if Label.declares d l then none
  else refusal? (l.use d (names.map fun name => ⟨name, 0, 0⟩).toArray)

/-- A line of the body that mentions no label has a word. -/
def Line.encodingFault? (d : Dialect) (l : Line) : Option Fault :=
  if Label.declares d l || !(l.labelTokens d).isEmpty then none else refusal? l.encode

inductive Phase where
  | defines
  | declarations
  | trailing
  | references
  | encoding
  deriving DecidableEq, Repr

namespace Phase

def all : List Phase := [defines, declarations, trailing, references, encoding]

/-- What a phase checks, if these labels are declared. -/
def check (d : Dialect) (names : List String) : Phase → Check
  | defines => Defines.check d
  | declarations => Label.check d
  | trailing => Label.checkTrailing d
  | references => .ofLine (Line.referenceFault? d names)
  | encoding => .ofLine (Line.encodingFault? d)

/-- The lines that a phase checks. All but the first phase come after the defines have been put to
use. -/
def scope (d : Dialect) (lines : List Line) : Phase → List Line
  | defines => lines
  | declarations | trailing | references | encoding => Defines.rest d lines

/-- The fault that a phase finds on the lines of a source. -/
def fault? (d : Dialect) (lines : List Line) (phase : Phase) : Option Fault :=
  Check.first (phase.check d (declaredNames d (Defines.rest d lines))) [] (phase.scope d lines)

end Phase

/-- The fault of a source with these lines. -/
def Source.fault? (d : Dialect) (lines : List Line) : Option Fault :=
  Phase.all.findSome? (Phase.fault? d lines)

/-! ## Defines -/

namespace Defines

theorem wellFormed_nil (d : Dialect) : WellFormed d [] := ⟨by simp, List.nodup_nil⟩

theorem lookup_eq_none_iff {defines : Defines} {name : String} :
    defines.lookup name = none ↔ name ∉ defines.map Prod.fst := by
  rw [List.lookup_eq_none_iff, List.mem_map]
  refine ⟨fun h hmem => ?_, fun h x hx => ?_⟩
  · obtain ⟨x, hx, rfl⟩ := hmem
    simpa using h x hx
  · have hne : name ≠ x.1 := fun he => h ⟨x, hx, he.symm⟩
    simpa using hne

theorem collect_spec {d : Dialect} {before : List Line} {defines : Defines}
    (h : WellFormed d before ∧ defines = table d before) (l : Line) (after : List Line) :
    match check d before l after with
    | some e => collect d defines l = .error e
    | none => ∃ defines', collect d defines l = .ok defines' ∧
        WellFormed d (before ++ [l]) ∧ defines' = table d (before ++ [l]) := by
  obtain ⟨hwell, rfl⟩ := h
  have hnext : ∀ {defines}, collect d (table d before) l = .ok defines →
      WellFormed d (before ++ [l]) ∧ defines = table d (before ++ [l]) := by
    intro defines hdefines
    have hbefore : before.foldlM (collect d) [] = .ok (table d before) :=
      ofLines_eq_ok.2 ⟨hwell, rfl⟩
    rw [← ofLines_eq_ok, ofLines, List.foldlM_append, hbefore, ok_bind, List.foldlM_cons, hdefines]
    rfl
  cases hl : d.isDefine l.first with
  | false =>
    have hcollect := collect_of_other hl (table d before)
    simp only [check, hl, Bool.false_eq_true, if_false]
    exact ⟨_, hcollect, hnext hcollect⟩
  | true =>
    by_cases hlen : l.tokens.length = 3
    · obtain ⟨keyword, name, replacement, htokens⟩ := List.length_eq_three.1 hlen
      by_cases hname : name ∈ (table d before).map Prod.fst
      · have hsome : ((table d before).lookup name).isSome = true := by
          rw [← Option.ne_none_iff_isSome, Ne, lookup_eq_none_iff]
          exact fun hnot => hnot hname
        simp only [check, hl, if_true, htokens, List.getD_cons_succ, List.getD_cons_zero, hname,
          ne_eq, List.length_cons, List.length_nil, not_true_eq_false, if_false]
        simp [collect, hl, htokens, hsome]
      · have hnew : (table d before).lookup (l.tokens.getD 1 "") = none := by
          rw [htokens]
          exact lookup_eq_none_iff.2 hname
        have hcollect := (collect_of_define hl).2 ⟨hlen, hnew, rfl⟩
        simp only [check, hl, if_true, htokens, List.getD_cons_succ, List.getD_cons_zero, hname,
          ne_eq, List.length_cons, List.length_nil, not_true_eq_false, if_false]
        exact ⟨_, hcollect, hnext hcollect⟩
    · simp only [check, hl, if_true, ne_eq, hlen, not_false_eq_true]
      unfold collect
      rw [if_pos hl]
      split
      · rename_i keyword name replacement htokens
        exact absurd (by rw [htokens]; rfl) hlen
      · rfl

/-- Collecting the defines of a source ends in the fault of the first phase. -/
theorem first_check (d : Dialect) (lines : List Line) :
    Check.first (check d) [] lines = refusal? (ofLines d lines) := by
  have hrun := Check.foldlM_first id
    (fun before defines => WellFormed d before ∧ defines = table d before)
    (fun before defines l after h => collect_spec h l after) lines [] [] ⟨wellFormed_nil d, rfl⟩
  rw [List.map_id] at hrun
  cases hfirst : Check.first (check d) [] lines with
  | some e =>
    rw [hfirst] at hrun
    rw [ofLines, hrun, refusal?_error]
  | none =>
    rw [hfirst] at hrun
    obtain ⟨defines, hdefines, -⟩ := hrun
    rw [ofLines, hdefines, refusal?_ok]

end Defines

/-! ## Labels -/

namespace Label

variable {d : Dialect}

/-- The scan knows the names that the lines declare, and has the labels wait that no other line
follows. -/
def Scan.HasRead (d : Dialect) (before : List Line) (s : Scan) : Prop :=
  (∀ name, s.declared name = true ↔ name ∈ declaredNames d before) ∧
    s.pending = (before.rtakeWhile (declares d)).map fun l => (l.first, l.source)

theorem hasRead_empty (d : Dialect) : Scan.HasRead d [] {} :=
  ⟨by simp [Scan.declared, declaredNames], rfl⟩

theorem declaredNames_concat (before : List Line) (l : Line) :
    declaredNames d (before ++ [l]) =
      declaredNames d before ++ if declares d l then [l.first] else [] := by
  rw [declaredNames, List.filter_append, List.map_append, List.filter_singleton]
  cases declares d l <;> rfl

theorem read_spec {p : Program} {before : List Line} {s : Scan} (h : s.HasRead d before)
    (id : LineId) (after : List Line) :
    match check d before (p.line id) after with
    | some e => s.read d p id = .error e
    | none => ∃ s', s.read d p id = .ok s' ∧ s'.HasRead d (before ++ [p.line id]) := by
  obtain ⟨hnames, hpending⟩ := h
  generalize hl : p.line id = l
  cases hd : declares d l with
  | false =>
    simp only [check, hd, Bool.false_eq_true, if_false]
    refine ⟨_, read_of_body s (hl ▸ hd), fun name => ?_, ?_⟩
    · rw [declared_bind, hnames, declaredNames_concat, hd, if_neg (by simp), List.append_nil]
    · rw [List.rtakeWhile_concat_neg _ _ _ (by simp [hd])]
      rfl
  | true =>
    by_cases hlen : l.tokens.length = 1
    · by_cases hmark : l.first = d.labelMark
      · simp [check, Scan.read, hl, hd, hlen, hmark]
      · by_cases hin : l.first ∈ declaredNames d before
        · have hdeclared := (hnames l.first).2 hin
          simp [check, Scan.read, hl, hd, hlen, hmark, hin, hdeclared]
        · have hnew : s.declared l.first = false := by
            rw [← Bool.not_eq_true, hnames]
            exact hin
          simp only [check, hd, if_true, ne_eq, hlen, not_true_eq_false, if_false, hmark, hin]
          refine ⟨_, (read_of_declares (hl ▸ hd)).2 ⟨hl ▸ ⟨hlen, hmark⟩, hl ▸ hnew, rfl⟩,
            fun name => ?_, ?_⟩
          · rw [← Bool.not_eq_false, declared_waiting, declaredNames_concat, hd, if_pos rfl,
              List.mem_append, List.mem_singleton, ← hnames, hl, ← Bool.not_eq_true]
            tauto
          · rw [List.rtakeWhile_concat_pos _ _ _ hd, List.map_append, hpending, hl]
            rfl
    · simp [check, Scan.read, hl, hd, hlen]

theorem rtakeWhile_append_of_all {α : Type} {p : α → Bool} {X : List α} (A : List α)
    (h : ∀ x ∈ X, p x = true) : (A ++ X).rtakeWhile p = A.rtakeWhile p ++ X := by
  rw [List.rtakeWhile, List.reverse_append, List.takeWhile_append_of_pos (by simpa using h),
    List.reverse_append, List.reverse_reverse]
  rfl

/-- The check fails at the first one of the declarations at the end, and nowhere else. -/
theorem checkTrailing_eq_some {A B : List Line} {l : Line} {e : Fault} :
    checkTrailing d A l B = some e ↔
      (A ++ l :: B).rtakeWhile (declares d) = l :: B ∧ e = ⟨.labelDangling l.first, l.source⟩ := by
  have hlast : A.getLast?.any (declares d) = false ↔ A.rtakeWhile (declares d) = [] := by
    rcases List.eq_nil_or_concat' A with rfl | ⟨A, a, rfl⟩
    · simp
    · rw [List.getLast?_concat, List.rtakeWhile_concat, Option.any_some]
      cases declares d a <;> simp
  have hrun : ((l :: B).all (declares d) && !A.getLast?.any (declares d)) = true ↔
      (A ++ l :: B).rtakeWhile (declares d) = l :: B := by
    rw [Bool.and_eq_true, Bool.not_eq_true', hlast, List.all_eq_true]
    refine ⟨fun h => ?_, fun h => ?_⟩
    · rw [rtakeWhile_append_of_all A h.1, h.2, List.nil_append]
    · have hall : ∀ x ∈ l :: B, declares d x = true := fun x hx =>
        List.mem_rtakeWhile_imp (h.symm ▸ hx)
      rw [rtakeWhile_append_of_all A hall] at h
      exact ⟨hall, List.append_left_eq_self.1 h⟩
  rw [← hrun, checkTrailing]
  split
  · rename_i h
    rw [Option.some.injEq, and_iff_right h]
    exact eq_comm
  · rename_i h
    exact ⟨fun hnone => (by cases hnone), fun hsome => absurd hsome.1 h⟩

/-- The label that is left over at the end is the first one of those that wait. -/
theorem first_checkTrailing (d : Dialect) (lines : List Line) :
    Check.first (checkTrailing d) [] lines =
      (lines.rtakeWhile (declares d)).head?.map fun l => ⟨.labelDangling l.first, l.source⟩ := by
  have hsplit : lines.rdropWhile (declares d) ++ lines.rtakeWhile (declares d) = lines :=
    List.rdropWhile_append_rtakeWhile
  cases htail : lines.rtakeWhile (declares d) with
  | nil =>
    rw [List.head?_nil, Option.map_none, Check.first_eq_none]
    intro A l B he
    rw [Option.eq_none_iff_forall_ne_some]
    intro e hcheck
    rw [List.nil_append, checkTrailing_eq_some, ← he, htail] at hcheck
    cases hcheck.1
  | cons l B =>
    rw [htail] at hsplit
    refine Check.first_eq_some.2 ⟨lines.rdropWhile (declares d), l, B, hsplit.symm, ?_, ?_⟩
    · rw [List.nil_append, checkTrailing_eq_some, hsplit]
      exact ⟨htail, rfl⟩
    · intro A' l' B' he hlt
      rw [Option.eq_none_iff_forall_ne_some]
      intro e hcheck
      -- the declarations at the end would be more than they are
      rw [List.nil_append, checkTrailing_eq_some, ← he, htail] at hcheck
      rw [hcheck.1] at hsplit
      have hsame := List.append_cancel_right (hsplit.trans he)
      rw [hsame] at hlt
      exact absurd hlt (Nat.lt_irrefl _)

/-- Reading the labels of a program ends in the fault of the second phase or of the third one. -/
theorem first_check (d : Dialect) (p : Program) :
    (Check.first (check d) [] p.lines).or (Check.first (checkTrailing d) [] p.lines) =
      refusal? (ofProgram d p) := by
  have hrun := Check.foldlM_first p.line (Scan.HasRead d)
    (fun before s id after h => read_spec h id after) p.ids [] {} (hasRead_empty d)
  rw [first_checkTrailing, ofProgram, Program.lines]
  cases hfirst : Check.first (check d) [] (p.ids.map p.line) with
  | some e =>
    rw [hfirst] at hrun
    rw [hrun, error_bind, refusal?_error, Option.some_or]
  | none =>
    rw [hfirst] at hrun
    obtain ⟨s, hs, -, hpending⟩ := hrun
    rw [List.nil_append] at hpending
    rw [hs, ok_bind, Option.none_or, Scan.finish, hpending]
    cases (p.ids.map p.line).rtakeWhile (declares d) <;> rfl

end Label

/-! ## References and words -/

theorem findSome?_body (d : Dialect) (f : Line → Option Fault) (lines : List Line) :
    (body d lines).findSome? f =
      lines.findSome? fun l => if Label.declares d l then none else f l := by
  induction lines with
  | nil => rfl
  | cons l lines ih =>
    rw [List.findSome?_cons, body, List.filter_cons]
    cases Label.declares d l with
    | true => exact ih
    | false =>
      rw [Bool.not_false, if_pos rfl, List.findSome?_cons, if_neg (by simp)]
      cases f l with
      | none => exact ih
      | some e => rfl

/-- What is wrong with a reference depends on nothing but the names of the labels. -/
theorem Line.refusal?_use (d : Dialect) {labels : Array Label} {names : List String}
    (h : labels.toList.map Label.name = names) (l : Line) :
    refusal? (l.use d (names.map fun name => ⟨name, 0, 0⟩).toArray) =
      refusal? (l.use d labels) := by
  have hnames : (names.map fun name => (⟨name, 0, 0⟩ : Label)).toArray =
      labels.map fun label => ⟨label.name, 0, 0⟩ := by
    rw [← h, List.map_map, ← List.map_toArray, Array.toArray_toList]
    rfl
  have huse := use_renumber id (g := fun label => ⟨label.name, 0, 0⟩) (fun _ => rfl) d labels l
  have hid : (Fault.renumber id) = id := rfl
  rw [hnames, show l.renumber id = l from rfl] at *
  rw [huse, refusal?_carry, hid, Option.map_id, id]

/-- Once the labels are read, resolving a program ends in the fault of the fourth phase. -/
theorem Program.first_references {d : Dialect} {p : Program} (hp : p.Valid) {labels : Array Label}
    (hlabels : Label.ofProgram d p = .ok labels) :
    Check.first (Phase.references.check d (declaredNames d p.lines)) [] p.lines =
      refusal? (p.resolve d) := by
  have hnames := map_name_labels (Label.ofProgram_eq_ok hlabels)
  have hresolve : refusal? (p.resolve d) =
      refusal? ((body d p.lines).mapM (Line.use d labels)) := by
    have hrun := resolve_of_labels hp hlabels
    cases hm : (body d p.lines).mapM (Line.use d labels) with
    | error e =>
      rw [hm] at hrun
      rw [hrun]
      rfl
    | ok uses =>
      rw [hm] at hrun
      obtain ⟨r, bs, hr, -⟩ := hrun
      rw [hr]
      rfl
  rw [hresolve, refusal?_mapM, findSome?_body, Phase.check, Check.first_ofLine]
  unfold Line.referenceFault?
  simp only [Line.refusal?_use d hnames]

/-- Of the lines in a block, only one that has not been written can be refused. -/
theorem Line.Becomes.findSome?_encode {d : Dialect} {symbols : List Symbol} {q : Nat} {l : Line}
    {block : List Line} (h : l.Becomes d symbols q block) (hbody : Label.declares d l = false) :
    block.findSome? (fun g => refusal? g.encode) = l.encodingFault? d := by
  by_cases hnone : l.labelTokens d = []
  · rw [h.eq_singleton hnone, List.findSome?_singleton, encodingFault?, hbody, hnone]
    rfl
  · have hwritten : ∀ g ∈ block, refusal? g.encode = none := by
      intro g hg
      rcases h.written hg with hg | ⟨-, hl⟩
      · exact refusal?_eq_none.2 hg.encodes
      · exact absurd hl hnone
    rw [List.findSome?_eq_none_iff.2 hwritten, encodingFault?]
    simp [hnone]

theorem findSome?_flatten_eq {α β : Type} (f : α → Option β) (blocks : List (List α)) :
    blocks.flatten.findSome? f = (blocks.map (List.findSome? f)).findSome? id := by
  induction blocks with
  | nil => rfl
  | cons block blocks ih =>
    rw [List.flatten_cons, List.findSome?_append, ih, List.map_cons, List.findSome?_cons]
    cases block.findSome? f <;> rfl

/-- Encoding a resolved program ends in the fault of the fifth phase. -/
theorem Program.first_encoding {d : Dialect} {p : Program} (hp : p.Valid) {r : Resolution}
    (hr : p.resolve d = .ok r) (names : List String) :
    Check.first (Phase.encoding.check d names) [] p.lines = refusal? r.program.encode := by
  obtain ⟨blocks, hout⟩ := laidOut hp hr
  have hblocks : blocks.map (List.findSome? fun g => refusal? g.encode) =
      (body d p.lines).map (Line.encodingFault? d) := by
    apply List.ext_getElem?
    intro k
    rw [List.getElem?_map, List.getElem?_map]
    cases hk : (body d p.lines)[k]? with
    | none =>
      rw [List.getElem?_eq_none_iff, ← hout.length_eq] at hk
      rw [List.getElem?_eq_none hk]
      rfl
    | some l =>
      obtain ⟨block, hblock, hbecomes⟩ := hout.becomes hk
      rw [hblock, Option.map_some, Option.map_some,
        hbecomes.findSome?_encode (body_not_label (List.mem_of_getElem? hk))]
  have hbody : (fun l => if Label.declares d l then none else l.encodingFault? d) =
      Line.encodingFault? d := by
    funext l
    unfold Line.encodingFault?
    cases Label.declares d l <;> rfl
  rw [encode, refusal?_mapM, hout.program, findSome?_flatten_eq, hblocks, List.findSome?_map,
    Function.id_comp, findSome?_body, hbody, Phase.check, Check.first_ofLine]

/-! ## The fault of a source -/

theorem Source.fault?_eq (d : Dialect) (lines : List Line) : fault? d lines =
    (Phase.defines.fault? d lines).or ((Phase.declarations.fault? d lines).or
      ((Phase.trailing.fault? d lines).or ((Phase.references.fault? d lines).or
        (Phase.encoding.fault? d lines)))) := by
  unfold fault? Phase.all
  simp only [List.findSome?_cons, List.findSome?_nil]
  cases Phase.defines.fault? d lines <;> cases Phase.declarations.fault? d lines <;>
    cases Phase.trailing.fault? d lines <;> cases Phase.references.fault? d lines <;>
    cases Phase.encoding.fault? d lines <;> rfl

theorem Program.refusal?_resolve {d : Dialect} {p : Program} (hp : p.Valid) {lines : List Line}
    (hlines : p.lines = Defines.rest d lines) :
    refusal? (p.resolve d >>= fun r => r.program.encode) =
      (Phase.declarations.fault? d lines).or ((Phase.trailing.fault? d lines).or
        ((Phase.references.fault? d lines).or (Phase.encoding.fault? d lines))) := by
  have hread := Label.first_check d p
  unfold Phase.fault? Phase.scope
  simp only [← hlines]
  rw [← Option.or_assoc]
  cases hlabels : Label.ofProgram d p with
  | error e =>
    rw [hlabels, refusal?_error] at hread
    have hresolve : p.resolve d = .error e := by
      unfold resolve Layout.ofProgram
      rw [hlabels]
      rfl
    rw [hresolve, error_bind, refusal?_error, Phase.check, Phase.check, hread, Option.some_or]
  | ok labels =>
    rw [hlabels, refusal?_ok] at hread
    rw [Phase.check, Phase.check, hread, Option.none_or, first_references hp hlabels]
    cases hr : p.resolve d with
    | error e => rfl
    | ok r =>
      rw [ok_bind, refusal?_ok, Option.none_or, first_encoding hp hr]

/-- A source is refused with its fault, and only if it has one. -/
theorem refusal?_assembleLines (d : Dialect) (raw : List String) :
    refusal? (assembleLines d raw) = Source.fault? d (Source.lines d raw) := by
  have hassemble : refusal? (assembleLines d raw) =
      refusal? (preprocess d raw >>= fun p => p.resolve d >>= fun r => r.program.encode) := by
    unfold assembleLines
    cases preprocess d raw with
    | error e => rfl
    | ok p =>
      cases hr : p.resolve d with
      | error e => simp [hr]
      | ok r => cases hw : r.program.encode <;> simp [hr, hw]
  have hdefines : Phase.defines.fault? d (Source.lines d raw) = refusal? (preprocess d raw) := by
    rw [Phase.fault?, Phase.check, Phase.scope, Defines.first_check, preprocess, refusal?_map,
      Defines.apply, Source.program, Program.lines_ofLines]
    cases Defines.ofLines d (Source.lines d raw) <;> rfl
  rw [hassemble, Source.fault?_eq, hdefines]
  cases hp : preprocess d raw with
  | error e => rfl
  | ok p =>
    obtain ⟨hvalid, -, hlines⟩ := preprocess_eq_ok hp
    rw [ok_bind, refusal?_ok, Option.none_or, Program.refusal?_resolve hvalid hlines]

end CompactRisc
