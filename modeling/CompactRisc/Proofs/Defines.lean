import CompactRisc.Assembly
import CompactRisc.Proofs.Fallible
import CompactRisc.Proofs.Sequence

/-!
# What the defines of a source do

The defines on a list of lines are a table of tokens with their replacements. It is read from the
lines that start with the define keyword alone, and put to use on all others.

Results:
* `Defines.ofLines_eq_ok`: the defines can be collected exactly if each has three tokens and no
  token is defined twice.
* `preprocess_eq_ok`: the program that comes out has the other lines, with every token replaced.
-/
namespace CompactRisc

namespace Defines

/-- The tokens that are defined on a list of lines, with their replacements. -/
def table (d : Dialect) (lines : List Line) : Defines :=
  (lines.filter (d.isDefine ·.first)).map fun l => (l.tokens.getD 1 "", l.tokens.getD 2 "")

/-- The lines that are no defines. Each token in the table is replaced by what is beside it. -/
def rest (d : Dialect) (lines : List Line) : List Line :=
  (lines.filter (!d.isDefine ·.first)).map fun l =>
    { l with tokens := l.tokens.map fun token => ((table d lines).lookup token).getD token }

/-- The defines on a list of lines have a token and a replacement each, and no token is defined
twice. -/
def WellFormed (d : Dialect) (lines : List Line) : Prop :=
  (∀ l ∈ lines, d.isDefine l.first = true → l.tokens.length = 3) ∧
    ((table d lines).map Prod.fst).Nodup

theorem collect_of_define {d : Dialect} {defines defines' : Defines} {l : Line}
    (h : d.isDefine l.first = true) : collect d defines l = .ok defines' ↔
      l.tokens.length = 3 ∧ defines.lookup (l.tokens.getD 1 "") = none ∧
        defines' = defines ++ [(l.tokens.getD 1 "", l.tokens.getD 2 "")] := by
  unfold collect
  rw [if_pos h]
  split
  · rename_i keyword name replacement ht
    split
    · rename_i hsome
      simp [ht, Option.ne_none_iff_isSome.2 hsome]
    · rename_i hnone
      simp only [Option.not_isSome_iff_eq_none] at hnone
      simp [ht, hnone, eq_comm]
  · rename_i hnot
    refine ⟨fun h => (by cases h), fun h => ?_⟩
    obtain ⟨a, b, c, he⟩ := List.length_eq_three.1 h.1
    exact absurd he (hnot a b c)

theorem collect_of_other {d : Dialect} {l : Line} (h : d.isDefine l.first = false)
    (defines : Defines) : collect d defines l = .ok defines := by
  unfold collect
  rw [if_neg (by simp [h])]

theorem lookup_append_singleton {defines : Defines} {name key replacement : String} :
    (defines ++ [(key, replacement)]).lookup name = none ↔
      defines.lookup name = none ∧ name ≠ key := by
  rw [List.lookup_append, Option.or_eq_none_iff, List.lookup_cons]
  by_cases h : name = key
  · simp [h]
  · simp [h, beq_false_of_ne h]

/-- The run of the collection over the lines that are left. -/
theorem foldlM_collect {d : Dialect} :
    ∀ {lines : List Line} {defines defines' : Defines},
      lines.foldlM (collect d) defines = .ok defines' ↔
        WellFormed d lines ∧ (∀ name ∈ (table d lines).map Prod.fst, defines.lookup name = none) ∧
          defines' = defines ++ table d lines
  | [], defines, defines' => by
    rw [List.foldlM_nil, pure_eq_ok, Except.ok.injEq, eq_comm]
    simp [WellFormed, table]
  | l :: lines, defines, defines' => by
    rw [List.foldlM_cons, bind_eq_ok]
    cases hl : d.isDefine l.first with
    | false =>
      have htable : table d (l :: lines) = table d lines := by simp [table, hl]
      rw [collect_of_other hl, htable]
      simp only [Except.ok.injEq, exists_eq_left', foldlM_collect, WellFormed, htable,
        List.forall_mem_cons, hl, Bool.false_eq_true, false_imp_iff, true_and]
    | true =>
      have htable : table d (l :: lines) =
          (l.tokens.getD 1 "", l.tokens.getD 2 "") :: table d lines := by simp [table, hl]
      simp only [collect_of_define hl, foldlM_collect, WellFormed, htable, List.forall_mem_cons, hl,
        List.map_cons, List.nodup_cons, forall_const]
      refine ⟨fun h => ?_, fun h => ?_⟩
      · obtain ⟨_, ⟨hlen, hnone, rfl⟩, ⟨hall, hnd⟩, hout, rfl⟩ := h
        have hsplit := fun name hname => lookup_append_singleton.1 (hout name hname)
        refine ⟨⟨⟨hlen, hall⟩, fun hin => (hsplit _ hin).2 rfl, hnd⟩,
          ⟨hnone, fun name hname => (hsplit name hname).1⟩, by simp⟩
      · obtain ⟨⟨⟨hlen, hall⟩, hnew, hnd⟩, ⟨hnone, hout⟩, rfl⟩ := h
        refine ⟨_, ⟨hlen, hnone, rfl⟩, ⟨hall, hnd⟩, fun name hname => ?_, by simp⟩
        exact lookup_append_singleton.2 ⟨hout name hname, fun he => hnew (he ▸ hname)⟩

theorem ofLines_eq_ok {d : Dialect} {lines : List Line} {defines : Defines} :
    ofLines d lines = .ok defines ↔ WellFormed d lines ∧ defines = table d lines := by
  unfold ofLines
  rw [foldlM_collect]
  simp

end Defines

theorem Program.lines_modifyLive_retain {p : Program} (hp : p.Valid) (keep : Line → Bool)
    (f : Line → Line) :
    ((p.retain keep).modifyLive fun _ => f).lines = (p.lines.filter keep).map f := by
  rw [lines_eq_map_entries, entries_modifyLive (valid_retain hp keep), entries_retain,
    lines_eq_map_entries, List.filter_map, List.map_map, List.map_map]
  rfl

theorem preprocess_eq_ok {d : Dialect} {raw : List String} {p : Program}
    (h : preprocess d raw = .ok p) :
    p.Valid ∧ Defines.WellFormed d (Source.lines d raw) ∧
      p.lines = Defines.rest d (Source.lines d raw) := by
  obtain ⟨⟨p', defines'⟩, happly, rfl⟩ := map_eq_ok.1 h
  obtain ⟨defines, hdefines, hp⟩ := bind_eq_ok.1 happly
  cases hp
  rw [Source.program, Program.lines_ofLines, Defines.ofLines_eq_ok] at hdefines
  obtain ⟨hwell, rfl⟩ := hdefines
  have hvalid : (Source.program d raw).Valid := Program.valid_ofLines _
  dsimp only
  refine ⟨Program.valid_modifyLive (Program.valid_retain hvalid _) _, hwell, ?_⟩
  rw [Program.lines_modifyLive_retain hvalid, Source.program, Program.lines_ofLines]
  rfl

theorem exists_preprocess_eq_ok {d : Dialect} {raw : List String} :
    (∃ p, preprocess d raw = .ok p) ↔ Defines.WellFormed d (Source.lines d raw) := by
  refine ⟨fun h => ?_, fun h => ?_⟩
  · obtain ⟨p, hp⟩ := h
    exact (preprocess_eq_ok hp).2.1
  · have hdefines := Defines.ofLines_eq_ok.2 ⟨h, rfl⟩
    rw [← Program.lines_ofLines (Source.lines d raw)] at hdefines
    exact ⟨_, map_eq_ok.2 ⟨_, bind_eq_ok.2 ⟨_, hdefines, rfl⟩, rfl⟩⟩

end CompactRisc
