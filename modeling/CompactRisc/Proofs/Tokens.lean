import CompactRisc.Output.Dump
import CompactRisc.Proofs.Sequence
import CompactRisc.Source
import Mathlib.Data.List.Basic
import Mathlib.Data.List.TakeDrop
import Mathlib.Data.List.TakeWhile

/-!
# Tokens that are written and read back

Source text is cut into lines, and each line into its words. Text that is written from tokens is cut
into the same tokens again, however the columns are filled, as long as every token is a word: it is
not empty and holds no blank.

Results:
* `Text.words_intercalate`, `Line.words_row`: the words of a line that is written with one space
  between the tokens, or in columns.
* `Text.lines_unlines`, `Text.lines_intercalate`: the lines of a text that is written line by line.
* `Source.lines_dump`, `Source.lines_listing`: the lines that are read from such a text.
* `Source.legible_of_mem_lines`: the tokens of a source can be written and read back.
* `Source.program_dump_iff`: the programs that are read back from their dumps.
-/
namespace CompactRisc

namespace Text

def IsWord (text : String) : Prop := text.toList ≠ [] ∧ ∀ c ∈ text.toList, isBlank c = false

instance (text : String) : Decidable (IsWord text) :=
  @instDecidableAnd _ _ inferInstance (List.decidableBAll (isBlank · = false) text.toList)

/-! ## Words -/

theorem words_ofList (cs : List Char) : words (String.ofList cs) =
    ((cs.splitOnP isBlank).filter (!·.isEmpty)).map String.ofList := by
  rw [words, String.toList_ofList]

@[simp] theorem words_empty : words "" = [] := by decide +kernel

theorem words_append_blank (s t : List Char) {c : Char} (hc : isBlank c = true) :
    words (String.ofList (s ++ c :: t)) = words (String.ofList s) ++ words (String.ofList t) := by
  rw [words_ofList, words_ofList, words_ofList, List.splitOnP_append_cons s t hc,
    List.filter_append, List.map_append]

theorem words_append_space (s t : String) : words (s ++ " " ++ t) = words s ++ words t := by
  have htext : s ++ " " ++ t = String.ofList (s.toList ++ ' ' :: t.toList) := by
    simp [← String.toList_inj]
  rw [htext, words_append_blank s.toList t.toList (by decide), String.ofList_toList,
    String.ofList_toList]

theorem words_of_blanks {b : List Char} (h : ∀ c ∈ b, isBlank c = true) :
    words (String.ofList b) = [] := by
  induction b with
  | nil => exact words_empty
  | cons c b ih =>
    have hcons := words_append_blank [] b (h c List.mem_cons_self)
    rw [List.nil_append] at hcons
    rw [hcons, ih fun c hc => h c (List.mem_cons_of_mem _ hc)]
    exact words_empty

theorem words_append_blanks (s : List Char) {b : List Char} (h : ∀ c ∈ b, isBlank c = true) :
    words (String.ofList (s ++ b)) = words (String.ofList s) := by
  cases b with
  | nil => rw [List.append_nil]
  | cons c b =>
    rw [words_append_blank s b (h c List.mem_cons_self),
      words_of_blanks fun c hc => h c (List.mem_cons_of_mem _ hc), List.append_nil]

theorem words_blanks_append {b : List Char} (h : ∀ c ∈ b, isBlank c = true) (t : List Char) :
    words (String.ofList (b ++ t)) = words (String.ofList t) := by
  induction b with
  | nil => rfl
  | cons c b ih =>
    have hcons := words_append_blank [] (b ++ t) (h c List.mem_cons_self)
    rw [List.nil_append] at hcons
    rw [List.cons_append, hcons, ih fun c hc => h c (List.mem_cons_of_mem _ hc)]
    exact congrArg (· ++ words (String.ofList t)) words_empty

theorem words_column (width : Nat) (t : String) : words (column width t) = words t := by
  have h := words_append_blanks t.toList
    (b := List.replicate (width - t.toList.length) ' ') fun c hc => by
      rw [(List.mem_replicate.1 hc).2]
      decide
  rwa [String.ofList_toList] at h

theorem words_trimEnd (t : String) : words (trimEnd t) = words t := by
  have hsplit : t.toList = (t.toList.reverse.dropWhile isBlank).reverse ++
      (t.toList.reverse.takeWhile isBlank).reverse := by
    rw [← List.reverse_append, List.takeWhile_append_dropWhile, List.reverse_reverse]
  have h := words_append_blanks (t.toList.reverse.dropWhile isBlank).reverse
    (b := (t.toList.reverse.takeWhile isBlank).reverse) fun c hc =>
      List.mem_takeWhile_imp (List.mem_reverse.1 hc)
  rw [← hsplit, String.ofList_toList] at h
  exact h.symm

theorem words_of_isWord {t : String} (h : IsWord t) : words t = [t] := by
  rw [words, List.splitOnP_eq_singleton h.2]
  simp [h.1]

theorem not_of_mem_splitOnP (isCut : Char → Bool) (cs : List Char) :
    ∀ piece ∈ cs.splitOnP isCut, ∀ c ∈ piece, isCut c = false := by
  induction cs with
  | nil => simp
  | cons x cs ih =>
    rw [List.splitOnP_cons_eq_if_modifyHead]
    cases hx : isCut x with
    | true => simpa using ih
    | false =>
      obtain ⟨first, rest, hpieces⟩ := List.exists_cons_of_ne_nil (List.splitOnP_ne_nil isCut cs)
      rw [hpieces] at ih ⊢
      simpa [hx] using ih

theorem isWord_of_mem_words {t w : String} (h : w ∈ words t) : IsWord w := by
  obtain ⟨piece, hpiece, rfl⟩ := List.mem_map.1 h
  obtain ⟨hmem, hne⟩ := List.mem_filter.1 hpiece
  rw [IsWord, String.toList_ofList]
  exact ⟨by simpa using hne, not_of_mem_splitOnP isBlank _ piece hmem⟩

theorem words_intercalate {tokens : List String} (h : ∀ t ∈ tokens, IsWord t) :
    words (" ".intercalate tokens) = tokens := by
  induction tokens with
  | nil => exact words_empty
  | cons t tokens ih =>
    have ht := words_of_isWord (h t List.mem_cons_self)
    cases tokens with
    | nil => rw [String.intercalate_singleton, ht]
    | cons u tokens =>
      rw [String.intercalate_cons_cons, words_append_space, ht,
        ih fun t ht => h t (List.mem_cons_of_mem _ ht)]
      rfl

/-! ## Lines -/

/-- All blanks of the text are spaces, so that it does not run over the end of a line. -/
def OneLine (text : String) : Prop := ∀ c ∈ text.toList, isBlank c = true → c = ' '

theorem oneLine_empty : OneLine "" := fun _ hc => absurd hc (by simp)

theorem oneLine_space : OneLine " " := fun _ hc _ => by simpa using hc

theorem oneLine_of_isWord {t : String} (h : IsWord t) : OneLine t :=
  fun c hc hblank => absurd hblank (by simp [h.2 c hc])

theorem OneLine.append {s t : String} (hs : OneLine s) (ht : OneLine t) : OneLine (s ++ t) := by
  intro c hc
  rw [String.toList_append, List.mem_append] at hc
  exact hc.elim (hs c) (ht c)

theorem OneLine.column {t : String} (h : OneLine t) (width : Nat) : OneLine (column width t) := by
  intro c hc hblank
  rw [Text.column, String.toList_ofList, List.rightpad, List.mem_append] at hc
  exact hc.elim (fun hc => h c hc hblank) fun hc => (List.mem_replicate.1 hc).2

theorem OneLine.trimEnd {t : String} (h : OneLine t) : OneLine (trimEnd t) := by
  intro c hc
  rw [Text.trimEnd, String.toList_ofList, List.mem_reverse] at hc
  exact h c (List.mem_reverse.1 ((List.dropWhile_sublist isBlank).subset hc))

theorem oneLine_intercalate {tokens : List String} (h : ∀ t ∈ tokens, IsWord t) :
    OneLine (" ".intercalate tokens) := by
  induction tokens with
  | nil => exact oneLine_empty
  | cons t tokens ih =>
    have ht := oneLine_of_isWord (h t List.mem_cons_self)
    cases tokens with
    | nil => rwa [String.intercalate_singleton]
    | cons u tokens =>
      rw [String.intercalate_cons_cons]
      exact (ht.append oneLine_space).append (ih fun t ht => h t (List.mem_cons_of_mem _ ht))

theorem OneLine.not_mem {t : String} (h : OneLine t) : '\n' ∉ t.toList ∧ '\r' ∉ t.toList := by
  refine ⟨fun hc => ?_, fun hc => ?_⟩
  · exact absurd (h _ hc (by decide)) (by decide)
  · exact absurd (h _ hc (by decide)) (by decide)

theorem chomp_of_oneLine {t : String} (h : OneLine t) : chomp t.toList = t.toList := by
  unfold chomp
  rw [if_neg fun hlast => h.not_mem.2 (List.mem_of_getLast? hlast)]

theorem map_chomp {ls : List String} (h : ∀ l ∈ ls, OneLine l) :
    (ls.map String.toList).map chomp = ls.map String.toList := by
  rw [List.map_map]
  exact List.map_congr_left fun l hl => chomp_of_oneLine (h l hl)

theorem splitOn_unlines {ls : List String} (h : ∀ l ∈ ls, OneLine l) :
    (unlines ls).toList.splitOn '\n' = ls.map String.toList ++ [[]] := by
  induction ls with
  | nil => rfl
  | cons l ls ih =>
    have hcons : (unlines (l :: ls)).toList = l.toList ++ '\n' :: (unlines ls).toList := by
      simp [unlines]
    rw [hcons, List.splitOn_append_cons_self_of_not_mem (h l List.mem_cons_self).not_mem.1,
      ih fun l hl => h l (List.mem_cons_of_mem _ hl)]
    rfl

theorem lines_unlines {ls : List String} (h : ∀ l ∈ ls, OneLine l) : lines (unlines ls) = ls := by
  unfold lines
  simp only [splitOn_unlines h, List.dropLast_concat, List.getLast?_concat, map_chomp h]
  simp [Function.comp_def]

theorem lines_intercalate {ls : List String} (h : ∀ l ∈ ls, OneLine l)
    (hne : ∀ l ∈ ls, l.toList ≠ []) : lines ("\n".intercalate ls) = ls := by
  rcases List.eq_nil_or_concat' ls with rfl | ⟨init, last, rfl⟩
  · decide +kernel
  · rw [List.forall_mem_append] at h
    have hpieces : ("\n".intercalate (init ++ [last])).toList.splitOn '\n' =
        init.map String.toList ++ [last.toList] := by
      rw [String.toList_intercalate, show "\n".toList = ['\n'] from rfl,
        List.splitOn_intercalate '\n' _ (by simp)]
      · simp
      · intro l hl
        obtain ⟨t, ht, rfl⟩ := List.mem_map.1 hl
        exact ((List.mem_append.1 ht).elim (h.1 t) (h.2 t)).not_mem.1
    have hlast : last.toList ≠ [] := hne last (by simp)
    unfold lines
    simp only [hpieces, List.dropLast_concat, List.getLast?_concat, map_chomp h.1]
    simp [Function.comp_def, hlast]

end Text

/-! ## Rows -/

/-- The words of the row of a line are the tokens that have a column. -/
theorem Line.words_row {l : Line} (h : ∀ t ∈ l.tokens, Text.IsWord t) :
    Text.words l.row = l.tokens.take 3 := by
  have hcells : Text.words l.row = Text.words (l.tokens.getD 0 "") ++
      Text.words (l.tokens.getD 1 "") ++ Text.words (l.tokens.getD 2 "") := by
    rw [row, Text.words_trimEnd, Text.words_append_space, Text.words_append_space,
      Text.words_column, Text.words_column]
  have hword : ∀ t ∈ l.tokens, Text.words t = [t] := fun t ht => Text.words_of_isWord (h t ht)
  rw [hcells]
  rcases htokens : l.tokens with _ | ⟨a, _ | ⟨b, _ | ⟨c, rest⟩⟩⟩
  · simp
  · simp [hword a (by simp [htokens])]
  · simp [hword a (by simp [htokens]), hword b (by simp [htokens])]
  · simp [hword a (by simp [htokens]), hword b (by simp [htokens]), hword c (by simp [htokens])]

theorem Line.oneLine_row {l : Line} (h : ∀ t ∈ l.tokens, Text.IsWord t) : Text.OneLine l.row := by
  have hcell : ∀ k, Text.OneLine (l.tokens.getD k "") := by
    intro k
    rw [List.getD_eq_getElem?_getD]
    cases hk : l.tokens[k]? with
    | none => exact Text.oneLine_empty
    | some t => exact Text.oneLine_of_isWord (h t (List.mem_of_getElem? hk))
  exact ((((((hcell 0).column 5).append Text.oneLine_space).append
    ((hcell 1).column 3)).append Text.oneLine_space).append (hcell 2)).trimEnd

/-- The lines with the given tokens, numbered from 1. -/
def Line.numbered (tokens : List (List String)) : List Line :=
  (tokens.zipIdx 1).map fun x => ⟨x.1, x.2⟩

theorem Line.map_tokens_numbered (tokens : List (List String)) :
    (numbered tokens).map Line.tokens = tokens := by
  rw [numbered, List.map_map]
  exact List.zipIdx_map_fst 1 tokens

theorem Line.getElem?_numbered (tokens : List (List String)) (k : Nat) :
    (numbered tokens)[k]? = tokens[k]?.map fun t => ⟨t, k + 1⟩ := by
  rw [numbered, List.getElem?_map, List.getElem?_zipIdx, Option.map_map, Nat.add_comm]
  rfl

namespace Source

/-- The tokens can stand on a raw line. -/
structure Legible (d : Dialect) (tokens : List String) : Prop where
  nonempty : tokens ≠ []
  isWord : ∀ t ∈ tokens, Text.IsWord t
  no_comment : ∀ t ∈ tokens, d.isComment t = false

theorem Legible.take {d : Dialect} {tokens : List String} (h : Legible d tokens) {n : Nat}
    (hn : 0 < n) : Legible d (tokens.take n) := by
  refine ⟨fun hempty => ?_, fun t ht => ?_, fun t ht => ?_⟩
  · rcases List.take_eq_nil_iff.1 hempty with rfl | hnil
    · exact absurd hn (Nat.lt_irrefl 0)
    · exact h.nonempty hnil
  · exact h.isWord t (List.mem_of_mem_take ht)
  · exact h.no_comment t (List.mem_of_mem_take ht)

/-- The token can stand on a raw line and refers to no label. -/
def Plain (d : Dialect) (token : String) : Prop :=
  Text.IsWord token ∧ d.isComment token = false ∧ d.isLabel token = false

instance (d : Dialect) (token : String) : Decidable (Plain d token) :=
  inferInstanceAs (Decidable (_ ∧ _))

theorem legible_of_plain {d : Dialect} {tokens : List String} (hne : tokens ≠ [])
    (h : ∀ t ∈ tokens, Plain d t) : Legible d tokens :=
  ⟨hne, fun t ht => (h t ht).1, fun t ht => (h t ht).2.1⟩

theorem filter_isLabel_of_plain {d : Dialect} {tokens : List String}
    (h : ∀ t ∈ tokens, Plain d t) : tokens.filter d.isLabel = [] :=
  List.filter_eq_nil_iff.2 fun t ht => by simp [(h t ht).2.2]

theorem tokens_of_words {d : Dialect} {raw : String} {tokens : List String}
    (hwords : Text.words raw = tokens) (h : Legible d tokens) : Source.tokens d raw = tokens := by
  rw [Source.tokens, hwords, List.takeWhile_eq_self_iff]
  intro t ht
  simp [h.no_comment t ht]

theorem lines_eq_numbered {d : Dialect} {raw : List String}
    (h : ∀ r ∈ raw, Source.tokens d r ≠ []) :
    lines d raw = Line.numbered (raw.map (Source.tokens d)) := by
  have hline : ∀ x ∈ raw.zipIdx 1, line? d x = some ⟨Source.tokens d x.1, x.2⟩ := by
    intro x hx
    have hmem : x.1 ∈ raw := by
      rw [← List.zipIdx_map_fst 1 raw]
      exact List.mem_map_of_mem hx
    rw [line?, if_neg (by simpa using h x.1 hmem)]
  rw [lines, List.filterMap_congr hline, List.filterMap_eq_map', Line.numbered, List.zipIdx_map,
    List.map_map]
  rfl

/-- Raw lines that are written for legible tokens, one for each item, are read as these tokens. -/
theorem lines_map {α : Type} {d : Dialect} {items : List α} {write : α → String}
    {tokens : α → List String} (hwords : ∀ x ∈ items, Text.words (write x) = tokens x)
    (hlegible : ∀ x ∈ items, Legible d (tokens x)) :
    lines d (items.map write) = Line.numbered (items.map tokens) := by
  have hread : ∀ x ∈ items, Source.tokens d (write x) = tokens x := fun x hx =>
    tokens_of_words (hwords x hx) (hlegible x hx)
  have hmap : (items.map write).map (Source.tokens d) = items.map tokens := by
    rw [List.map_map]
    exact List.map_congr_left hread
  rw [lines_eq_numbered, hmap]
  intro r hr
  obtain ⟨x, hx, rfl⟩ := List.mem_map.1 hr
  rw [hread x hx]
  exact (hlegible x hx).nonempty

/-- What is read from a dump are the tokens that have a column. -/
theorem lines_dump_take {d : Dialect} {p : Program} (h : ∀ l ∈ p.lines, Legible d l.tokens) :
    lines d (Text.lines p.dump) = Line.numbered (p.lines.map fun l => l.tokens.take 3) := by
  have hrows : Text.lines p.dump = p.lines.map Line.row := by
    rw [Program.dump, Text.lines_unlines]
    intro r hr
    obtain ⟨l, hl, rfl⟩ := List.mem_map.1 hr
    exact Line.oneLine_row (h l hl).isWord
  rw [hrows]
  exact lines_map (fun l hl => Line.words_row (h l hl).isWord) fun l hl => (h l hl).take (by decide)

/-- What is read from a dump are the tokens of the program, if they all have a column. -/
theorem lines_dump {d : Dialect} {p : Program}
    (h : ∀ l ∈ p.lines, Legible d l.tokens ∧ l.tokens.length ≤ 3) :
    lines d (Text.lines p.dump) = Line.numbered (p.lines.map Line.tokens) := by
  rw [lines_dump_take fun l hl => (h l hl).1]
  congr 1
  apply List.map_congr_left
  intro l hl
  exact List.take_of_length_le (h l hl).2

/-- What is read from lines of tokens with one space between them are these tokens. -/
theorem lines_listing {d : Dialect} {tokens : List (List String)} (h : ∀ t ∈ tokens, Legible d t) :
    lines d (Text.lines ("\n".intercalate (tokens.map " ".intercalate))) =
      Line.numbered tokens := by
  have hwords : ∀ t ∈ tokens, Text.words (" ".intercalate t) = t := fun t ht =>
    Text.words_intercalate (h t ht).isWord
  have hrows : Text.lines ("\n".intercalate (tokens.map " ".intercalate)) =
      tokens.map " ".intercalate := by
    refine Text.lines_intercalate (fun r hr => ?_) fun r hr hempty => ?_
    · obtain ⟨t, ht, rfl⟩ := List.mem_map.1 hr
      exact Text.oneLine_intercalate (h t ht).isWord
    · obtain ⟨t, ht, rfl⟩ := List.mem_map.1 hr
      -- a line without characters has no words
      have hnone := hwords t ht
      rw [String.toList_eq_nil_iff.1 hempty, Text.words_empty] at hnone
      exact (h t ht).nonempty hnone.symm
  rw [hrows, lines_map hwords h, List.map_id']

theorem line?_eq_some {d : Dialect} {x : String × Nat} {l : Line} (h : line? d x = some l) :
    l = ⟨tokens d x.1, x.2⟩ ∧ tokens d x.1 ≠ [] := by
  rw [line?] at h
  split at h
  · cases h
  · rename_i hsome
    cases h
    exact ⟨rfl, by simpa using hsome⟩

theorem legible_of_mem_lines {d : Dialect} {raw : List String} {l : Line} (h : l ∈ lines d raw) :
    Legible d l.tokens := by
  obtain ⟨x, -, hline⟩ := List.mem_filterMap.1 h
  obtain ⟨rfl, hne⟩ := line?_eq_some hline
  refine ⟨hne, fun t ht => ?_, fun t ht => ?_⟩
  · exact Text.isWord_of_mem_words ((List.takeWhile_sublist _).subset ht)
  · simpa using List.mem_takeWhile_imp ht

/-! ## Programs that are read back -/

/-- The tokens that a dump gives back are legible and have a column, since they have been read. -/
theorem legible_of_program_dump {d : Dialect} {p : Program}
    (h : (program d (Text.lines p.dump)).lines.map Line.tokens = p.lines.map Line.tokens)
    {l : Line} (hl : l ∈ p.lines) : Legible d l.tokens ∧ l.tokens.length ≤ 3 := by
  rw [program, Program.lines_ofLines] at h
  have hlegible : ∀ l ∈ p.lines, Legible d l.tokens := by
    intro l hl
    -- the tokens of this line are those of some line that was read
    have hmem : l.tokens ∈ p.lines.map Line.tokens := List.mem_map_of_mem hl
    rw [← h] at hmem
    obtain ⟨l', hl', htokens⟩ := List.mem_map.1 hmem
    rw [← htokens]
    exact legible_of_mem_lines hl'
  -- so all rows are read, and no token without a column can have come back
  rw [lines_dump_take hlegible, Line.map_tokens_numbered] at h
  exact ⟨hlegible l hl, (List.take_eq_self_iff _).1 (List.map_inj_left.1 h l hl)⟩

/-- A program is read back from its dump, line by line and with the lines numbered from 1, exactly if
every line has one to three tokens and every token is a word that starts no comment. -/
theorem program_dump_iff (d : Dialect) (p : Program) :
    (∀ l ∈ p.lines, (1 ≤ l.tokens.length ∧ l.tokens.length ≤ 3) ∧
      ∀ t ∈ l.tokens, Text.IsWord t ∧ d.isComment t = false) ↔
    (program d (Text.lines p.dump)).lines.map Line.tokens = p.lines.map Line.tokens ∧
    ∀ k l, (program d (Text.lines p.dump)).lines[k]? = some l → l.source = k + 1 := by
  refine ⟨fun h => ?_, fun h l hl => ?_⟩
  · have hlines := lines_dump (d := d) (p := p) fun l hl =>
      ⟨⟨List.ne_nil_of_length_pos (h l hl).1.1, fun t ht => ((h l hl).2 t ht).1,
        fun t ht => ((h l hl).2 t ht).2⟩, (h l hl).1.2⟩
    rw [program, Program.lines_ofLines, hlines]
    refine ⟨Line.map_tokens_numbered _, fun k l hl => ?_⟩
    rw [Line.getElem?_numbered, Option.map_eq_some_iff] at hl
    obtain ⟨t, -, rfl⟩ := hl
    rfl
  · obtain ⟨hlegible, hlen⟩ := legible_of_program_dump h.1 hl
    exact ⟨⟨List.length_pos_iff.2 hlegible.nonempty, hlen⟩, fun t ht =>
      ⟨hlegible.isWord t ht, hlegible.no_comment t ht⟩⟩

/-- A row with all columns, a token wider than its column, and a token that starts a comment in
another dialect. -/
theorem program_dump_iff_wide : ∃ p : Program,
    p.lines = [⟨["MOVIL", "r12", "0x5"], 9⟩, ⟨["größer-als", "±1"], 0⟩, ⟨["#ff"], 9⟩] ∧
    (program { commentMark := ";" } (Text.lines p.dump)).lines.map Line.tokens =
      [["MOVIL", "r12", "0x5"], ["größer-als", "±1"], ["#ff"]] ∧
    ∀ k l, (program { commentMark := ";" } (Text.lines p.dump)).lines[k]? = some l →
      l.source = k + 1 := by
  obtain ⟨p, hlines⟩ : ∃ p : Program,
      p.lines = [⟨["MOVIL", "r12", "0x5"], 9⟩, ⟨["größer-als", "±1"], 0⟩, ⟨["#ff"], 9⟩] :=
    ⟨_, Program.lines_ofLines _⟩
  obtain ⟨htokens, hsource⟩ := (program_dump_iff { commentMark := ";" } p).1 (by
    rw [hlines]
    simp only [List.forall_mem_cons, List.not_mem_nil, false_imp_iff, implies_true, and_true]
    decide)
  exact ⟨p, hlines, htokens.trans (congrArg (List.map Line.tokens) hlines), hsource⟩

end Source

end CompactRisc
