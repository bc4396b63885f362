import CompactRisc.Proofs.Correspondence
import CompactRisc.Proofs.Violations

/-!
# The form of a source

Blank lines, comments and the space between the tokens are the form of a source. It has no
influence but on the numbers of the lines: two sources with the same tokens on their lines are both
refused for the same cause, or have the same assembly, and what is said about a line of the one is
said about the line of the other one in the same place.

Results:
* `Source.sameTokens_of_edits`: edits that change the form alone.
* `Source.fault?_renumber`: the fault of a source, if its lines get other numbers.
* `assembleLines_reformat`: the outcomes for two sources with the same tokens.
-/
namespace CompactRisc

namespace Source

/-! ## Edits of the form -/

def IsBlank (text : String) : Prop := ∀ c ∈ text.toList, Text.isBlank c = true

instance (text : String) : Decidable (IsBlank text) :=
  List.decidableBAll (Text.isBlank · = true) text.toList

/-- The text is a comment: that is how its first word starts. -/
def IsComment (d : Dialect) (text : String) : Prop :=
  ∃ word ∈ (Text.words text).head?, d.isComment word = true

/-- Edits of a raw line that leave its tokens as they are. -/
inductive LineEdit (d : Dialect) : String → String → Prop
  /-- Blanks are put in place of others. There may be none at the start and at the end of a line. -/
  | blanks {before blanks blanks' after : String} (blank : IsBlank blanks)
      (blank' : IsBlank blanks')
      (apart : before = "" ∨ after = "" ∨ blanks ≠ "" ∧ blanks' ≠ "") :
      LineEdit d (before ++ blanks ++ after) (before ++ blanks' ++ after)
  /-- A comment is put after the line. -/
  | comment (text : String) {blanks comment : String} (blank : IsBlank blanks) (apart : blanks ≠ "")
      (isComment : IsComment d comment) : LineEdit d text (text ++ blanks ++ comment)

/-- Edits of a source that leave the tokens on its lines as they are. -/
inductive Edit (d : Dialect) : List String → List String → Prop
  /-- A line is put in that is blank or a comment. -/
  | insert (before after : List String) {text : String} (empty : IsBlank text ∨ IsComment d text) :
      Edit d (before ++ after) (before ++ text :: after)
  /-- A line is edited. -/
  | line (before after : List String) {text text' : String} (edit : LineEdit d text text') :
      Edit d (before ++ text :: after) (before ++ text' :: after)

/-- The two sources have the same tokens, line by line. -/
def SameTokens (d : Dialect) (raw raw' : List String) : Prop :=
  (lines d raw').map Line.tokens = (lines d raw).map Line.tokens

/-- The numbers of the lines of the second source are those of the first one under `f`. -/
def Renumbers (d : Dialect) (f : Nat → Nat) (raw raw' : List String) : Prop :=
  (lines d raw').map Line.source = (lines d raw).map fun l => f l.source

/-- Blanks that stand between two texts, or before or after one, are part of no word. -/
theorem words_around {before blanks after : String} (hblank : IsBlank blanks)
    (hapart : before = "" ∨ after = "" ∨ blanks ≠ "") :
    Text.words (before ++ blanks ++ after) = Text.words before ++ Text.words after := by
  have htext : before ++ blanks ++ after =
      String.ofList (before.toList ++ (blanks.toList ++ after.toList)) := by
    simp [← String.toList_inj]
  rcases hapart with rfl | rfl | hne
  · have hwords := Text.words_blanks_append hblank after.toList
    rw [htext, String.toList_empty, List.nil_append, hwords, String.ofList_toList, Text.words_empty,
      List.nil_append]
  · have hwords := Text.words_append_blanks before.toList hblank
    rw [htext, String.toList_empty, List.append_nil, hwords, String.ofList_toList, Text.words_empty,
      List.append_nil]
  · obtain ⟨c, b, hb⟩ := List.exists_cons_of_ne_nil (mt String.toList_eq_nil_iff.1 hne)
    rw [IsBlank, hb, List.forall_mem_cons] at hblank
    rw [htext, hb, List.cons_append, Text.words_append_blank _ _ hblank.1,
      Text.words_blanks_append hblank.2, String.ofList_toList, String.ofList_toList]

theorem tokens_of_empty {d : Dialect} {text : String} (h : IsBlank text ∨ IsComment d text) :
    tokens d text = [] := by
  rcases h with hblank | ⟨word, hword, hcomment⟩
  · have hwords := Text.words_of_blanks hblank
    rw [String.ofList_toList] at hwords
    rw [tokens, hwords]
    rfl
  · obtain ⟨rest, hwords⟩ := List.head?_eq_some_iff.1 hword
    rw [tokens, hwords, List.takeWhile_cons_of_neg (by simp [hcomment])]

theorem LineEdit.tokens_eq {d : Dialect} {text text' : String} (h : LineEdit d text text') :
    tokens d text' = tokens d text := by
  cases h with
  | @blanks before blanks blanks' after hblank hblank' hapart =>
    have hwords : Text.words (before ++ blanks' ++ after) =
        Text.words (before ++ blanks ++ after) := by
      rw [words_around hblank (hapart.imp_right (Or.imp_right And.left)),
        words_around hblank' (hapart.imp_right (Or.imp_right And.right))]
    rw [tokens, hwords]
    rfl
  | @comment text blanks comment hblank hne hcomment =>
    have hnone : tokens d comment = [] := tokens_of_empty (Or.inr hcomment)
    rw [tokens] at hnone
    rw [tokens, words_around hblank (Or.inr (Or.inr hne)), List.takeWhile_append, hnone,
      List.append_nil, tokens]
    split
    · rename_i hall
      rw [(List.takeWhile_sublist _).eq_of_length hall]
    · rfl

theorem map_tokens_lines (d : Dialect) (raw : List String) :
    (lines d raw).map Line.tokens = (raw.map (tokens d)).filter (!·.isEmpty) := by
  unfold lines
  generalize 1 = n
  induction raw generalizing n with
  | nil => rfl
  | cons text raw ih =>
    rw [List.zipIdx_cons, List.filterMap_cons, List.map_cons, List.filter_cons, line?]
    cases (tokens d text).isEmpty with
    | true => exact ih (n + 1)
    | false => exact congrArg (tokens d text :: ·) (ih (n + 1))

theorem sameTokens_of_edits {d : Dialect} {raw raw' : List String}
    (h : Relation.EqvGen (Edit d) raw raw') : SameTokens d raw raw' := by
  induction h with
  | rel raw raw' hedit =>
    rw [SameTokens, map_tokens_lines, map_tokens_lines]
    cases hedit with
    | insert before after hempty => simp [tokens_of_empty hempty]
    | line before after hline => simp [hline.tokens_eq]
  | refl raw => rfl
  | symm raw raw' _ ih => exact Eq.symm ih
  | trans raw raw' raw'' _ _ ih ih' => exact Eq.trans ih' ih

theorem exists_renumbers {d : Dialect} {raw raw' : List String} (h : SameTokens d raw raw') :
    ∃ f, Renumbers d f raw raw' := by
  obtain ⟨f, hf⟩ := Line.exists_renumber (pairwise_lines d raw) h
  refine ⟨f, ?_⟩
  rw [Renumbers, hf, List.map_map]
  rfl

end Source

/-! ## Faults -/

theorem Defines.table_renumber (f : Nat → Nat) (d : Dialect) (lines : List Line) :
    table d (lines.map (Line.renumber f)) = table d lines := by
  rw [table, List.filter_map, List.map_map]
  rfl

theorem Defines.rest_renumber (f : Nat → Nat) (d : Dialect) (lines : List Line) :
    rest d (lines.map (Line.renumber f)) = (rest d lines).map (Line.renumber f) := by
  rw [rest, table_renumber, List.filter_map, List.map_map, rest, List.map_map]
  rfl

theorem declaredNames_renumber (f : Nat → Nat) (d : Dialect) (lines : List Line) :
    declaredNames d (lines.map (Line.renumber f)) = declaredNames d lines := by
  rw [declaredNames, List.filter_map, List.map_map]
  rfl

@[simp] theorem Label.declares_renumber (f : Nat → Nat) (d : Dialect) (l : Line) :
    declares d (l.renumber f) = declares d l := rfl

theorem Check.first_renumber {f : Nat → Nat} {check : Check}
    (h : ∀ A l B, check (A.map (Line.renumber f)) (l.renumber f) (B.map (Line.renumber f)) =
      (check A l B).map (Fault.renumber f)) (before lines : List Line) :
    first check (before.map (Line.renumber f)) (lines.map (Line.renumber f)) =
      (first check before lines).map (Fault.renumber f) := by
  induction lines generalizing before with
  | nil => rfl
  | cons l lines ih =>
    have hnext := ih (before ++ [l])
    rw [List.map_append, List.map_singleton] at hnext
    rw [List.map_cons, first, first, h, hnext, Option.map_or]

namespace Phase

variable (f : Nat → Nat) (d : Dialect)

theorem check_renumber (names : List String) (phase : Phase) (A : List Line) (l : Line)
    (B : List Line) :
    phase.check d names (A.map (Line.renumber f)) (l.renumber f) (B.map (Line.renumber f)) =
      (phase.check d names A l B).map (Fault.renumber f) := by
  cases phase with
  | defines =>
    simp only [check, Defines.check, Defines.table_renumber, Line.first_renumber,
      Line.tokens_renumber]
    split
    · split
      · rfl
      · split <;> rfl
    · rfl
  | declarations =>
    simp only [check, Label.check, declaredNames_renumber, Label.declares_renumber,
      Line.first_renumber, Line.tokens_renumber]
    split
    · split
      · rfl
      split
      · rfl
      split <;> rfl
    · rfl
  | trailing =>
    have hlast : (A.map (Line.renumber f)).getLast?.any (Label.declares d) =
        A.getLast?.any (Label.declares d) := by
      rw [List.getLast?_map]
      cases A.getLast? <;> rfl
    have hall : ((l :: B).map (Line.renumber f)).all (Label.declares d) =
        (l :: B).all (Label.declares d) := by
      rw [List.all_map]
      rfl
    rw [List.map_cons] at hall
    rw [check, Label.checkTrailing, Label.checkTrailing, hall, hlast]
    split <;> rfl
  | references =>
    have huse := l.use_renumber f (g := id) (fun _ => rfl) d
      (names.map fun name => ⟨name, 0, 0⟩).toArray
    rw [Array.map_id] at huse
    simp only [check, Check.ofLine, Line.referenceFault?, Label.declares_renumber, huse,
      refusal?_carry]
    cases Label.declares d l <;> rfl
  | encoding =>
    have htokens : (l.renumber f).labelTokens d = l.labelTokens d := rfl
    simp only [check, Check.ofLine, Line.encodingFault?, Label.declares_renumber, htokens,
      Line.encode_renumber, refusal?_carry]
    cases Label.declares d l || !(l.labelTokens d).isEmpty <;> rfl

theorem fault?_renumber (lines : List Line) (phase : Phase) :
    phase.fault? d (lines.map (Line.renumber f)) =
      (phase.fault? d lines).map (Fault.renumber f) := by
  have hscope : phase.scope d (lines.map (Line.renumber f)) =
      (phase.scope d lines).map (Line.renumber f) := by
    cases phase with
    | defines => rfl
    | declarations | trailing | references | encoding => exact Defines.rest_renumber f d lines
  rw [fault?, hscope, Defines.rest_renumber, declaredNames_renumber]
  exact Check.first_renumber (check_renumber f d _ phase) [] _

end Phase

theorem Source.fault?_renumber (f : Nat → Nat) (d : Dialect) (lines : List Line) :
    fault? d (lines.map (Line.renumber f)) = (fault? d lines).map (Fault.renumber f) := by
  rw [fault?, fault?, List.map_findSome?]
  congr 1
  funext phase
  exact Phase.fault?_renumber f d lines phase

/-! ## The outcome for two sources -/

/-- The second outcome is the first one with other numbers for the lines. -/
def Agree (f : Nat → Nat) : Except Fault Assembly → Except Fault Assembly → Prop
  | .ok A, .ok A' => A'.words = A.words ∧
      A'.program.lines = A.program.lines.map (Line.renumber f) ∧
      A'.symbols = A.symbols ∧ A'.warnings = A.warnings.map (Warning.renumber f)
  | .error e, .error e' => e'.cause = e.cause ∧ e'.line = f e.line
  | _, _ => False

/-- The form of a source changes nothing. Edits of the form leave the tokens as they are, and two
sources with the same tokens have the same outcome, up to the numbers of the lines. -/
theorem assembleLines_reformat (d : Dialect) (raw raw' : List String) :
    (Relation.EqvGen (Source.Edit d) raw raw' → Source.SameTokens d raw raw') ∧
    (Source.SameTokens d raw raw' →
      (∃ f, Source.Renumbers d f raw raw') ∧
      ∀ f, Source.Renumbers d f raw raw' →
        Agree f (assembleLines d raw) (assembleLines d raw')) := by
  refine ⟨Source.sameTokens_of_edits, fun htokens => ⟨Source.exists_renumbers htokens, ?_⟩⟩
  intro f hf
  have hlines := Line.eq_map_renumber htokens hf
  have hfault := refusal?_assembleLines d raw'
  rw [hlines, Source.fault?_renumber, ← refusal?_assembleLines] at hfault
  cases h : assembleLines d raw with
  | error e =>
    rw [h, refusal?_error, Option.map_some, refusal?_eq_some] at hfault
    rw [hfault]
    exact ⟨rfl, rfl⟩
  | ok A =>
    have hrest := Defines.rest_renumber f d (Source.lines d raw)
    rw [← hlines] at hrest
    obtain ⟨B, hB⟩ := refusal?_eq_none.1 (hfault.trans (by rw [h]; rfl))
    obtain ⟨p, _, _, hp, -⟩ := assembleLines_eq_ok.1 hB
    obtain ⟨A', hA', hsame⟩ := assembleLines_renumber (preprocess_eq_ok hp).2.1 hrest h
    rw [hA']
    exact hsame

/-- A comment on a line of its own, one after a line, and a second space between two tokens, in a
source with an unused label. -/
theorem assembleLines_reformat_comments :
    Relation.EqvGen (Source.Edit {}) [".a", "MOV r1 r2"] ["# copy", ".a", "MOV  r1 r2 # now"] ∧
    Source.Renumbers {} (· + 1) [".a", "MOV r1 r2"] ["# copy", ".a", "MOV  r1 r2 # now"] ∧
    Agree (· + 1) (assembleLines {} [".a", "MOV r1 r2"])
      (assembleLines {} ["# copy", ".a", "MOV  r1 r2 # now"]) := by
  have hinsert : Source.Edit {} [".a", "MOV r1 r2"] ["# copy", ".a", "MOV r1 r2"] :=
    .insert [] [".a", "MOV r1 r2"] (Or.inr ⟨"#", by decide +kernel, by decide +kernel⟩)
  have hblanks : Source.LineEdit {} ("MOV" ++ " " ++ "r1 r2") ("MOV" ++ "  " ++ "r1 r2") :=
    .blanks (by decide) (by decide) (Or.inr (Or.inr (by decide)))
  have hcomment : Source.LineEdit {} "MOV  r1 r2" ("MOV  r1 r2" ++ " " ++ "# now") :=
    .comment _ (by decide) (by decide) ⟨"#", by decide +kernel, by decide +kernel⟩
  have hedits : Relation.EqvGen (Source.Edit {}) [".a", "MOV r1 r2"]
      ["# copy", ".a", "MOV  r1 r2 # now"] :=
    .trans _ _ _ (.rel _ _ hinsert) (.trans _ _ _
      (.rel _ _ (.line ["# copy", ".a"] [] hblanks))
      (.rel _ _ (.line ["# copy", ".a"] [] hcomment)))
  have hnumbers : Source.Renumbers {} (· + 1) [".a", "MOV r1 r2"]
      ["# copy", ".a", "MOV  r1 r2 # now"] := by
    unfold Source.Renumbers
    decide +kernel
  obtain ⟨htokens, houtcome⟩ :=
    assembleLines_reformat {} [".a", "MOV r1 r2"] ["# copy", ".a", "MOV  r1 r2 # now"]
  exact ⟨hedits, hnumbers, (houtcome (htokens hedits)).2 _ hnumbers⟩

end CompactRisc
