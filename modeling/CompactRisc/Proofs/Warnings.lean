import CompactRisc.Proofs.Resolution

/-!
# Unused labels

The warnings of a resolution and its count of references, read off the lines of the program. A line
refers to a label if one of its tokens does, whatever else is on the line. That a resolution looks at
one token of a line only makes no difference, since a line with several references is refused.

Results:
* `Resolved.mentions_iff`: the label that a line of the body mentions is the one that it refers to.
* `Program.resolve_warns_unused`: the warnings are about the labels that no line refers to.
-/
namespace CompactRisc

/-- One of the tokens of the line is a label or a reference, and the line is no declaration. -/
def Line.isReference (d : Dialect) (l : Line) : Bool :=
  !Label.declares d l && l.tokens.any d.isLabel

/-- The line refers to the label with the given name, which stands before the first separator in one
of its tokens. -/
def Line.refersTo (d : Dialect) (name : String) (l : Line) : Bool :=
  !Label.declares d l && l.tokens.any fun token =>
    d.isLabel token && String.ofList (token.toList.takeWhile (· != d.loadSeparator)) == name

theorem Line.isSome_mentioned? {d : Dialect} {l : Line} :
    (l.mentioned? d).isSome = l.tokens.any d.isLabel := by
  rw [Bool.eq_iff_iff, ← Option.ne_none_iff_isSome, ne_eq, Outline.mentioned?_eq_none, labelTokens,
    List.filter_eq_nil_iff, List.any_eq_true]
  simp

namespace Resolved

variable {d : Dialect} {p : Program} {r : Resolution} {labels : Array Label}
  {bs : List Layout.Block}

theorem labelTokens_cases (h : Resolved d p r labels bs) {l : Line} (hl : l ∈ body d p.lines) :
    l.labelTokens d = [] ∨ ∃ token, l.labelTokens d = [token] := by
  rw [← Label.strip_lines, Program.lines_eq_map_entries] at hl
  obtain ⟨e, he, rfl⟩ := List.mem_map.1 hl
  obtain ⟨k, hk⟩ := List.getElem?_of_mem he
  obtain ⟨b, -, hexpands⟩ := getElem?_right_of_forall₂ h.blocks hk
  cases hexpands with
  | plain hnone => exact .inl hnone
  | site hu =>
    cases hu with
    | move hone => exact .inr ⟨_, hone⟩
    | transfer hone => exact .inr ⟨_, hone⟩

theorem mentions_iff (h : Resolved d p r labels bs) {l : Line} (hl : l ∈ body d p.lines)
    (name : String) : l.mentioned? d = some name ↔ l.refersTo d name = true := by
  have hbody : Label.declares d l = false := by simpa using (List.mem_filter.1 hl).2
  have hrefers : l.refersTo d name = true ↔ ∃ token ∈ l.labelTokens d,
      String.ofList (token.toList.takeWhile (· != d.loadSeparator)) = name := by
    simp [Line.refersTo, hbody, Line.labelTokens, and_assoc]
  rw [hrefers, Line.mentioned?]
  rcases h.labelTokens_cases hl with hnone | ⟨token, hone⟩
  · simp [hnone]
  · rw [hone, List.head?_cons, Option.map_some, headD_splitOn]
    simp

theorem mem_mentioned (h : Resolved d p r labels bs) (name : String) :
    name ∈ Outline.mentioned d p.lines ↔ p.lines.any (Line.refersTo d name) = true := by
  rw [Outline.mentioned, List.mem_filterMap, List.any_eq_true]
  refine ⟨fun hmem => ?_, fun hany => ?_⟩
  · obtain ⟨l, hl, hname⟩ := hmem
    exact ⟨l, List.mem_of_mem_filter hl, (h.mentions_iff hl name).1 hname⟩
  · obtain ⟨l, hl, hrefers⟩ := hany
    have hbody : l ∈ body d p.lines :=
      List.mem_filter.2 ⟨hl, (Bool.and_eq_true_iff.1 hrefers).1⟩
    exact ⟨l, hbody, (h.mentions_iff hbody name).2 hrefers⟩

end Resolved

/-- A resolution warns once of each label that no line refers to, in the order of the declarations
and at the line of the declaration, and of nothing else. It counts the lines with a reference. -/
theorem Program.resolve_warns_unused {d : Dialect} {p : Program} {r : Resolution} (hp : p.Valid)
    (h : p.resolve d = .ok r) :
    ((p.lines.filter (Label.declares d)).map Line.first).Nodup ∧
    r.warnings = ((p.lines.filter (Label.declares d)).filter
        fun l => !p.lines.any (Line.refersTo d l.first)).map
      (fun l => ⟨"Unused label: " ++ l.first, some l.source⟩) ∧
    r.expanded = p.lines.countP (Line.isReference d) := by
  obtain ⟨labels, bs, hlabels, hres⟩ := resolved hp h
  refine ⟨(Label.exists_ofProgram_eq_ok.1 ⟨labels, hlabels⟩).2.1, ?_, ?_⟩
  · have hunused : ∀ name, decide (name ∉ Outline.mentioned d p.lines) =
        !p.lines.any (Line.refersTo d name) := by
      intro name
      rw [decide_not, Bool.not_inj_iff, Bool.eq_iff_iff, decide_eq_true_iff]
      exact hres.mem_mentioned name
    have hdeclared := congrArg (fun declared => (declared.filter fun x : String × Nat =>
      !p.lines.any (Line.refersTo d x.1)).map fun x => Warning.unusedLabel x.1 x.2)
      (map_declarations d p.lines 0)
    simp only [List.filter_map, List.map_map] at hdeclared
    rw [hres.warnings_eq]
    simp only [hunused]
    exact hdeclared
  · rw [hres.expanded_eq, body, List.countP_filter]
    refine List.countP_congr fun l _ => ?_
    rw [Line.isSome_mentioned?, Bool.and_comm]
    rfl

/-- Of three labels one has a reference; the separator ends its name. -/
theorem Program.resolve_warns_unused_two : ∃ r,
    (ofLines [⟨[".a"], 1⟩, ⟨[".b"], 2⟩, ⟨["JUC", ".b$r1"], 3⟩, ⟨[".b$r1"], 4⟩,
      ⟨["NOP"], 5⟩]).resolve {} = .ok r ∧
    r.warnings = [⟨"Unused label: .a", some 1⟩, ⟨"Unused label: .b$r1", some 4⟩] ∧
    r.expanded = 1 := by
  obtain ⟨r, h⟩ := exists_ok_of_isOk (x := (ofLines [⟨[".a"], 1⟩, ⟨[".b"], 2⟩,
    ⟨["JUC", ".b$r1"], 3⟩, ⟨[".b$r1"], 4⟩, ⟨["NOP"], 5⟩]).resolve {}) (by decide +kernel)
  obtain ⟨-, hwarnings, hexpanded⟩ := resolve_warns_unused (valid_ofLines _) h
  rw [lines_ofLines] at hwarnings hexpanded
  exact ⟨r, h, hwarnings.trans (by decide +kernel), hexpanded.trans (by decide +kernel)⟩

end CompactRisc
