import CompactRisc.Proofs.Correspondence
import CompactRisc.Proofs.Reassembly
import CompactRisc.Proofs.Violations

/-!
# Sources without defines

The defines of a source can be put to use by hand: every define is taken out, and every token that
is defined is replaced where it stands, once. What comes out has no defines, although a replacement
may be any token, and is assembled like the source. So it does not matter where the defines of a
source stand, nor in which order.

Results:
* `Source.lines_substitute`: the lines of a source whose defines have been put to use by hand.
* `Line.AllAccepted.isDefine`: no replacement makes a define of a line that is accepted.
* `Source.Reorders.tokens_rest`: the tokens that come out do not depend on the place of the defines.
* `assembleLines_substitute`: the assembly of such a source.
-/
namespace CompactRisc

namespace Source

/-! ## Defines that are put to use by hand -/

/-- A raw line without defines: nothing is left of a define, and in any other line each token in the
table is replaced by what is beside it. -/
def substituteText (d : Dialect) (table : List (String × String)) (text : String) : String :=
  if d.isDefine ((tokens d text).headD "") then ""
  else " ".intercalate ((tokens d text).map fun token => (table.lookup token).getD token)

/-- The raw lines of a source without its defines. -/
def substitute (d : Dialect) (raw : List String) : List String :=
  raw.map (substituteText d (Defines.table d (lines d raw)))

theorem tokens_empty (d : Dialect) : tokens d "" = [] := by
  rw [tokens, Text.words_empty]
  rfl

theorem line?_substituteText {d : Dialect} {defines : Defines} {text : String} {n : Nat}
    (h : ∀ l, line? d (text, n) = some l → d.isDefine l.first = false →
      Legible d (defines.replaceLine l).tokens) :
    line? d (substituteText d defines text, n) =
      ((line? d (text, n)).filter (!d.isDefine ·.first)).map defines.replaceLine := by
  have hempty : line? d ("", n) = none := by
    rw [line?, tokens_empty]
    rfl
  cases hline : line? d (text, n) with
  | none =>
    have hnone : tokens d text = [] := by simpa [line?] using hline
    have htext : substituteText d defines text = "" := by
      rw [substituteText, hnone]
      split <;> rfl
    rw [htext, hempty]
    rfl
  | some l =>
    obtain ⟨rfl, -⟩ := line?_eq_some hline
    cases hdefine : d.isDefine ((tokens d text).headD "") with
    | true =>
      rw [substituteText, if_pos hdefine, hempty]
      simp only [Option.filter_some, Line.first, hdefine]
      rfl
    | false =>
      have hlegible : Legible d ((tokens d text).map fun token =>
        (defines.lookup token).getD token) := h _ hline hdefine
      have htokens := tokens_of_words (Text.words_intercalate hlegible.isWord) hlegible
      rw [substituteText, if_neg (Bool.eq_false_iff.1 hdefine), line?, htokens,
        if_neg (by simpa using hlegible.nonempty)]
      simp only [Option.filter_some, Line.first, hdefine]
      rfl

/-- The lines of a source without defines are its other lines, with every token replaced. -/
theorem lines_substituteText {d : Dialect} {defines : Defines} {raw : List String}
    (h : ∀ l ∈ lines d raw, d.isDefine l.first = false →
      Legible d (defines.replaceLine l).tokens) :
    lines d (raw.map (substituteText d defines)) =
      ((lines d raw).filter (!d.isDefine ·.first)).map defines.replaceLine := by
  have hline : ∀ x ∈ raw.zipIdx 1, (line? d ∘ Prod.map (substituteText d defines) id) x =
      ((line? d x).filter (!d.isDefine ·.first)).map defines.replaceLine := by
    rintro ⟨text, n⟩ hx
    rw [Function.comp_apply, Prod.map_apply, id]
    exact line?_substituteText fun l hl => h l (List.mem_filterMap.2 ⟨_, hx, hl⟩)
  unfold lines
  rw [List.filter_filterMap, List.map_filterMap, List.zipIdx_map, List.filterMap_map]
  exact List.filterMap_congr hline

/-- What comes out is what the preprocessor makes of the source. -/
theorem lines_substitute {d : Dialect} {raw : List String}
    (hwell : Defines.WellFormed d (lines d raw)) :
    lines d (substitute d raw) = Defines.rest d (lines d raw) := by
  refine lines_substituteText fun l hl hdefine => ?_
  refine Defines.legible_of_mem_rest hwell (List.mem_map_of_mem (List.mem_filter.2 ⟨hl, ?_⟩))
  rw [hdefine]
  rfl

end Source

/-! ## Lines that are accepted are no defines -/

theorem Defines.wellFormed_of_none {d : Dialect} {lines : List Line}
    (h : ∀ l ∈ lines, d.isDefine l.first = false) : WellFormed d lines := by
  refine ⟨fun l hl hdefine => ?_, ?_⟩
  · cases hdefine.symm.trans (h l hl)
  · rw [table_of_none h]
    exact List.nodup_nil

theorem Dialect.isDefine_of_isLabel {token : String} (h : isLabel {} token = true) :
    isDefine {} token = false := by
  rw [isLabel, Text.startsWith, List.isPrefixOf_iff_prefix] at h
  obtain ⟨cs, hcs⟩ := h
  rw [isDefine, Text.eqIgnoringCase, ← hcs]
  rfl

/-- A line that is accepted is no define, whatever its tokens stand for. -/
theorem Line.AllAccepted.isDefine {lines : List Line} (h : Line.AllAccepted {} lines) :
    ∀ l ∈ lines, Dialect.isDefine {} l.first = false := by
  intro l hl
  cases hlabel : Dialect.isLabel {} l.first with
  | true => exact Dialect.isDefine_of_isLabel hlabel
  | false =>
    cases h.body l hl hlabel with
    | plain _ hencodes =>
      obtain ⟨w, hw⟩ := hencodes
      exact Line.isDefine_of_encode hw
    | move hshape =>
      have hmov : Dialect.isDefine {} "MOV" = false := by decide +kernel
      rw [Line.first, hshape]
      exact hmov
    | @transfer i name token loading hi _ hshape =>
      rw [Line.first, hshape]
      exact Instruction.isDefine_mnemonic i hi

/-! ## Defines in another place and order -/

/-- The second source has the lines of the first one, with the defines in any other place and
order. -/
def Source.Reorders (d : Dialect) (raw raw' : List String) : Prop :=
  ((lines d raw').filter (!d.isDefine ·.first)).map Line.tokens =
      ((lines d raw).filter (!d.isDefine ·.first)).map Line.tokens ∧
    (((lines d raw').filter (d.isDefine ·.first)).map Line.tokens).Perm
      (((lines d raw).filter (d.isDefine ·.first)).map Line.tokens)

namespace Defines

/-- In a table without a token that is defined twice, a token stands for what is beside it. -/
theorem lookup_eq_some_iff {defines : Defines} (h : (defines.map Prod.fst).Nodup)
    {token replacement : String} :
    defines.lookup token = some replacement ↔ (token, replacement) ∈ defines := by
  induction defines with
  | nil => simp
  | cons x defines ih =>
    obtain ⟨name, value⟩ := x
    rw [List.map_cons, List.nodup_cons] at h
    rw [List.lookup_cons, List.mem_cons, Prod.mk.injEq]
    by_cases hname : token = name
    · subst hname
      have hout : (token, replacement) ∉ defines := fun hmem =>
        h.1 (List.mem_map.2 ⟨(token, replacement), hmem, rfl⟩)
      simp [hout, eq_comm]
    · rw [beq_false_of_ne hname, ← ih h.2]
      simp [hname]

theorem replace_of_perm {defines defines' : Defines} (hperm : defines'.Perm defines)
    (h : (defines.map Prod.fst).Nodup) : defines'.replace = defines.replace := by
  have h' : (defines'.map Prod.fst).Nodup := (hperm.map Prod.fst).nodup_iff.2 h
  funext token
  have hlookup : defines'.lookup token = defines.lookup token := by
    apply Option.ext
    intro replacement
    rw [lookup_eq_some_iff h', lookup_eq_some_iff h, hperm.mem_iff]
  rw [replace, replace, hlookup]

theorem table_eq_map_tokens (d : Dialect) (lines : List Line) : table d lines =
    ((lines.filter (d.isDefine ·.first)).map Line.tokens).map
      fun tokens => (tokens.getD 1 "", tokens.getD 2 "") := by
  rw [List.map_map]
  rfl

end Defines

namespace Source.Reorders

variable {d : Dialect} {raw raw' : List String}

theorem table_perm (h : Reorders d raw raw') :
    (Defines.table d (lines d raw')).Perm (Defines.table d (lines d raw)) := by
  rw [Defines.table_eq_map_tokens, Defines.table_eq_map_tokens]
  exact h.2.map _

theorem wellFormed (h : Reorders d raw raw') (hwell : Defines.WellFormed d (lines d raw)) :
    Defines.WellFormed d (lines d raw') := by
  refine ⟨fun l' hl' hdefine => ?_, (h.table_perm.map Prod.fst).nodup_iff.2 hwell.2⟩
  have hmem := h.2.mem_iff.1 (List.mem_map_of_mem (List.mem_filter.2 ⟨hl', hdefine⟩))
  obtain ⟨l, hl, htokens⟩ := List.mem_map.1 hmem
  obtain ⟨hl, hdefine⟩ := List.mem_filter.1 hl
  rw [← htokens]
  exact hwell.1 l hl hdefine

/-- The tokens that come out do not depend on the place of the defines. -/
theorem tokens_rest (h : Reorders d raw raw') (hwell : Defines.WellFormed d (lines d raw)) :
    (Defines.rest d (lines d raw')).map Line.tokens =
      (Defines.rest d (lines d raw)).map Line.tokens := by
  have hrest : ∀ raw, (Defines.rest d (lines d raw)).map Line.tokens =
      (((lines d raw).filter (!d.isDefine ·.first)).map Line.tokens).map
        (List.map (Defines.table d (lines d raw)).replace) := by
    intro raw
    rw [Defines.rest, List.map_map, List.map_map]
    rfl
  rw [hrest, hrest, h.1, Defines.replace_of_perm h.table_perm hwell.2]

end Source.Reorders

/-! ## The assembly of a source without defines -/

/-- The defines of a source can be eliminated. If every define is taken out, and every token that is
defined is replaced where it stands, the assembly is the same. Hence it is also the same, but for
the numbers of the lines, if the defines stand in another place and order. -/
theorem assembleLines_substitute {raw : List String} {A : Assembly}
    (h : assembleLines {} raw = .ok A) :
    (Defines.WellFormed {} (Source.lines {} raw) ∧
      ∃ A', assembleLines {} (Source.substitute {} raw) = .ok A' ∧ A'.words = A.words ∧
        A'.program.lines = A.program.lines ∧ A'.symbols = A.symbols ∧ A'.warnings = A.warnings) ∧
    ∀ raw', Source.Reorders {} raw raw' → ∃ f A', assembleLines {} raw' = .ok A' ∧
      (Defines.rest {} (Source.lines {} raw')).map Line.source =
        (Defines.rest {} (Source.lines {} raw)).map (fun l => f l.source) ∧
      A'.words = A.words ∧ A'.program.lines = A.program.lines.map (Line.renumber f) ∧
      A'.symbols = A.symbols ∧ A'.warnings = A.warnings.map (Warning.renumber f) := by
  obtain ⟨p, _, _, hp, -⟩ := assembleLines_eq_ok.1 h
  obtain ⟨-, hwell, -⟩ := preprocess_eq_ok hp
  refine ⟨⟨hwell, ?_⟩, fun raw' hreorders => ?_⟩
  · have haccepted := (Source.accepted_iff (by decide +kernel) raw).1 ⟨A, h⟩
    have hnone := haccepted.rest.isDefine
    have hlines := Source.lines_substitute hwell
    obtain ⟨A', hA', hwords, hprogram, hsymbols, hwarnings⟩ :=
      assembleLines_renumber (f := id) (hlines ▸ Defines.wellFormed_of_none hnone)
        (by rw [hlines, Defines.rest_of_none hnone, Line.renumber_id, List.map_id]) h
    refine ⟨A', hA', hwords, ?_, hsymbols, ?_⟩
    · rw [hprogram, Line.renumber_id, List.map_id]
    · rw [hwarnings, Warning.renumber_id, List.map_id]
  · obtain ⟨f, hf⟩ := Line.exists_renumber (Source.pairwise_scope {} raw .declarations)
      (hreorders.tokens_rest hwell)
    obtain ⟨A', hA', hsame⟩ := assembleLines_renumber (hreorders.wellFormed hwell) hf h
    refine ⟨f, A', hA', ?_, hsame⟩
    rw [hf, List.map_map]
    rfl

/-- A define that follows its use, a replacement that is defined itself, and a define that names a
label. -/
theorem assembleLines_substitute_chain : ∃ A A',
    assembleLines {} ["`define X r3", "MOV X r3", "`DEFINE r3 r4", "GO", "JUC .top$r1",
      "`define GO .top"] = .ok A ∧
    assembleLines {} ["", "MOV r3 r4", "", ".top", "JUC .top$r1", ""] = .ok A' ∧
    A'.words = A.words ∧ A'.program.lines = A.program.lines ∧ A'.symbols = A.symbols ∧
    A'.warnings = A.warnings := by
  obtain ⟨A, hA⟩ := exists_ok_of_isOk (x := assembleLines {} ["`define X r3", "MOV X r3",
    "`DEFINE r3 r4", "GO", "JUC .top$r1", "`define GO .top"]) (by decide +kernel)
  obtain ⟨⟨-, A', hA', hsame⟩, -⟩ := assembleLines_substitute hA
  have htext : Source.substitute {} ["`define X r3", "MOV X r3", "`DEFINE r3 r4", "GO",
      "JUC .top$r1", "`define GO .top"] =
      ["", "MOV r3 r4", "", ".top", "JUC .top$r1", ""] := by decide +kernel
  rw [htext] at hA'
  exact ⟨A, A', hA, hA', hsame⟩

end CompactRisc
