import Mathlib.Data.List.TakeWhile
import Mathlib.Logic.Equiv.Basic
import CompactRisc.Proofs.Correspondence

/-!
# Names of labels

A label can have any name. If the labels of a program get other names, different ones for different
labels, the program is resolved to the same lines, and the labels have the same addresses. A name
goes into the program in the place of an address that is not yet known, but none is left in the end.

Results:
* `Label.extend_injective`: a renaming of names is one of all texts.
* `Token.corresponds_rename`, `Line.corresponds_rename`: what is renamed corresponds to what it was.
* `Program.resolve_rename`: the resolution of a program whose labels have other names.
-/
namespace CompactRisc

/-! ## Renamings -/

namespace Label

/-- The text is the name of a label: it starts with the mark, is longer than the mark, and does not
hold the separator. -/
def isName (d : Dialect) (text : String) : Bool :=
  d.isLabel text && text != d.labelMark && !text.toList.contains d.loadSeparator

abbrev Name (d : Dialect) := { text : String // isName d text = true }

/-- The renaming of a text, which stays if it is not the name of a label. -/
def extend {d : Dialect} (σ : Name d → Name d) (text : String) : String :=
  if h : isName d text = true then (σ ⟨text, h⟩).1 else text

variable {d : Dialect} {σ : Name d → Name d} {text : String}

theorem extend_of_isName (h : isName d text = true) : extend σ text = (σ ⟨text, h⟩).1 := dif_pos h

theorem extend_of_not_isName (h : isName d text = false) : extend σ text = text :=
  dif_neg (by simp [h])

theorem isName_extend (σ : Name d → Name d) (text : String) :
    isName d (extend σ text) = isName d text := by
  cases h : isName d text with
  | true =>
    rw [extend_of_isName h]
    exact (σ ⟨text, h⟩).2
  | false => rw [extend_of_not_isName h, h]

theorem extend_injective (hσ : Function.Injective σ) : Function.Injective (extend σ) := by
  intro s t hst
  have hname : isName d s = isName d t := by rw [← isName_extend σ s, hst, isName_extend]
  cases hs : isName d s with
  | true =>
    have ht := hname.symm.trans hs
    rw [extend_of_isName hs, extend_of_isName ht] at hst
    exact congrArg Subtype.val (hσ (Subtype.ext hst))
  | false =>
    rwa [extend_of_not_isName hs, extend_of_not_isName (hname.symm.trans hs)] at hst

end Label

/-- The token with the part before the separator renamed. -/
def Token.rename {d : Dialect} (σ : Label.Name d → Label.Name d) (token : String) : String :=
  Label.extend σ (String.ofList (token.toList.takeWhile (· != d.loadSeparator))) ++
    String.ofList (token.toList.dropWhile (· != d.loadSeparator))

def Line.rename {d : Dialect} (σ : Label.Name d → Label.Name d) (l : Line) : Line :=
  { l with tokens := l.tokens.map (Token.rename σ) }

/-! ## What is renamed corresponds -/

theorem Dialect.isLabel_iff {token : String} :
    isLabel {} token = true ↔ token.toList.head? = some '.' := by
  have hstart : isLabel {} token = ['.'].isPrefixOf token.toList := rfl
  rw [hstart]
  cases token.toList with
  | nil => simp
  | cons c cs =>
    rw [List.head?_cons, Option.some.injEq, eq_comm (a := c)]
    simp

theorem Label.isName_iff {d : Dialect} {text : String} : isName d text = true ↔
    d.isLabel text = true ∧ text ≠ d.labelMark ∧ d.loadSeparator ∉ text.toList := by
  simp [isName, and_assoc]

namespace Token

variable {σ : Label.Name {} → Label.Name {}} {token : String}

/-- A token is a label if the part before the separator is one. -/
theorem isLabel_base (token : String) :
    Dialect.isLabel {} (String.ofList (token.toList.takeWhile (· != '$'))) =
      Dialect.isLabel {} token := by
  rw [Bool.eq_iff_iff, Dialect.isLabel_iff, Dialect.isLabel_iff, String.toList_ofList]
  cases token.toList with
  | nil => rfl
  | cons c cs =>
    rw [List.takeWhile_cons]
    split
    · rfl
    · rename_i hc
      obtain rfl : c = '$' := by simpa using hc
      simp

theorem corresponds_rename (σ : Label.Name {} → Label.Name {}) (token : String) :
    Corresponds {} (Label.extend σ) token (rename σ token) := by
  have hbase := isLabel_base token
  have hsplit : token.toList.takeWhile (· != '$') ++ token.toList.dropWhile (· != '$') =
      token.toList := List.takeWhile_append_dropWhile
  have hrename : (rename σ token).toList =
      (Label.extend σ (String.ofList (token.toList.takeWhile (· != '$')))).toList ++
        token.toList.dropWhile (· != '$') := by simp [rename]
  have hnot : '$' ∉ token.toList.takeWhile (· != '$') := fun hmem => by
    simpa using List.mem_takeWhile_imp hmem
  generalize token.toList.takeWhile (· != '$') = base at hbase hsplit hrename hnot
  -- the name that comes out holds no separator, and is a label if the old one is
  obtain ⟨hlabel, hname⟩ :
      Dialect.isLabel {} (Label.extend σ (String.ofList base)) = Dialect.isLabel {} token ∧
        '$' ∉ (Label.extend σ (String.ofList base)).toList := by
    cases h : Label.isName {} (String.ofList base) with
    | false =>
      rw [Label.extend_of_not_isName h, String.toList_ofList]
      exact ⟨hbase, hnot⟩
    | true =>
      have hold := (Label.isName_iff.1 h).1
      rw [← Label.isName_extend σ] at h
      obtain ⟨hnew, -, hsep⟩ := Label.isName_iff.1 h
      exact ⟨by rw [hnew, ← hbase, hold], hsep⟩
  cases h : Dialect.isLabel {} token with
  | false =>
    have hother : Label.isName {} (String.ofList base) = false := by
      rw [Label.isName, hbase, h]
      rfl
    have hsame : rename σ token = token := by
      rw [← String.toList_inj, hrename, Label.extend_of_not_isName hother, String.toList_ofList,
        hsplit]
    rw [hsame]
    exact .other h
  | true =>
    obtain ⟨parts, hparts⟩ := exists_parts '$' token.toList
    have hfirst := hparts base hnot
    have hfirst' := hparts _ hname
    rw [hsplit, ← String.toList_ofList (l := base)] at hfirst
    rw [← hrename] at hfirst'
    have hlabel' : Dialect.isLabel {} (rename σ token) = true := by
      rw [h, Dialect.isLabel_iff] at hlabel
      rw [Dialect.isLabel_iff, hrename, List.head?_append, hlabel]
      rfl
    refine .label h hlabel' hfirst hfirst' fun r hr => ?_
    have hregister : ∀ r : Register, Dialect.isLabel {} r.name = false := by decide +kernel
    rw [hr, hregister r] at h
    cases h

theorem rename_of_not_mem (h : '$' ∉ token.toList) : rename σ token = Label.extend σ token := by
  have hall : ∀ c ∈ token.toList, (c != '$') = true := by
    intro c hc
    exact bne_iff_ne.2 fun he => h (he ▸ hc)
  rw [rename, List.takeWhile_eq_self_iff.2 hall, List.dropWhile_eq_nil_iff.2 hall,
    String.ofList_toList]
  exact String.append_empty

end Token

theorem Line.corresponds_rename (σ : Label.Name {} → Label.Name {}) {l : Line}
    (h : Label.declares {} l = true → '$' ∉ l.first.toList) :
    l.Corresponds {} (Label.extend σ) id (l.rename σ) where
  source := rfl
  tokens := List.forall₂_map_right_iff.2
    (List.forall₂_same.2 fun token _ => Token.corresponds_rename σ token)
  declared := fun hdeclares => by
    have hfirst : (l.rename σ).first = Token.rename σ l.first := by
      obtain ⟨tokens, n⟩ := l
      cases tokens with
      | nil => cases hdeclares
      | cons token tokens => rfl
    rw [hfirst, Token.rename_of_not_mem (h hdeclares)]
    refine ⟨rfl, fun hmark => ?_⟩
    have hname := Label.isName_iff.2 ⟨hdeclares, hmark, h hdeclares⟩
    rw [← Label.isName_extend σ] at hname
    exact (Label.isName_iff.1 hname).2.1

/-! ## The resolution of a program with other names -/

/-- Label names are only names. A program whose labels get other names, different ones for different
labels, is resolved to the same lines, with the same addresses under the new names. -/
theorem Program.resolve_rename {lines : List Line} {r : Resolution}
    {σ : Label.Name {} → Label.Name {}} (hσ : Function.Injective σ)
    (hnames : ∀ name ∈ declaredNames {} lines, '$' ∉ name.toList)
    (h : (ofLines lines).resolve {} = .ok r) :
    (∀ s ∈ r.symbols, Label.isName {} s.name = true) ∧
    ∃ r', (ofLines (lines.map (Line.rename σ))).resolve {} = .ok r' ∧
      r'.program.lines = r.program.lines ∧
      r'.symbols = r.symbols.map (Symbol.rename (Label.extend σ)) ∧
      r'.expanded = r.expanded ∧ r'.relaxed = r.relaxed ∧
      r'.program.encode = r.program.encode := by
  have hvalid := valid_ofLines lines
  have hvalid' := valid_ofLines (lines.map (Line.rename σ))
  have hdeclared : ∀ l ∈ lines, Label.declares {} l = true → '$' ∉ l.first.toList :=
    fun l hl hdeclares => hnames _ (List.mem_map_of_mem (List.mem_filter.2 ⟨hl, hdeclares⟩))
  refine ⟨fun s hs => ?_, ?_⟩
  · obtain ⟨blocks, hout⟩ := laidOut hvalid h
    obtain ⟨hwell, -⟩ := (exists_resolve_iff hvalid).1 ⟨r, h⟩
    rw [lines_ofLines] at hout hwell
    have hmem : s.name ∈ declaredNames {} lines := by
      rw [← hout.map_name_symbols]
      exact List.mem_map_of_mem hs
    obtain ⟨l, hl, hfirst⟩ := List.mem_map.1 hmem
    obtain ⟨hl, hdeclares⟩ := List.mem_filter.1 hl
    rw [← hfirst, Label.isName_iff]
    exact ⟨hdeclares, (hwell l hl hdeclares).2, hdeclared l hl hdeclares⟩
  · have hcorresponds : List.Forall₂ (Line.Corresponds {} (Label.extend σ) id) (ofLines lines).lines
        (ofLines (lines.map (Line.rename σ))).lines := by
      rw [lines_ofLines, lines_ofLines, List.forall₂_map_right_iff, List.forall₂_same]
      exact fun l hl => Line.corresponds_rename σ (hdeclared l hl)
    obtain ⟨r', hr', hprogram, hsymbols, -, hexpanded, hrelaxed⟩ :=
      resolve_corresponds (Label.extend_injective hσ) hvalid hvalid' hcorresponds h
    rw [Line.renumber_id, List.map_id] at hprogram
    refine ⟨r', hr', hprogram, hsymbols, hexpanded, hrelaxed, ?_⟩
    rw [encode, encode, hprogram]

/-- Two labels that exchange their names. -/
theorem Program.resolve_rename_swap : ∃ r r',
    (ofLines [⟨[".a"], 1⟩, ⟨["JUC", ".b$r1"], 2⟩, ⟨[".b"], 3⟩,
      ⟨["MOV", "r2", ".a"], 4⟩]).resolve {} = .ok r ∧
    (ofLines [⟨[".b"], 1⟩, ⟨["JUC", ".a$r1"], 2⟩, ⟨[".a"], 3⟩,
      ⟨["MOV", "r2", ".b"], 4⟩]).resolve {} = .ok r' ∧
    r'.program.lines = r.program.lines ∧ r.symbols = [⟨".a", 0⟩, ⟨".b", 1⟩] ∧
    r'.symbols = [⟨".b", 0⟩, ⟨".a", 1⟩] ∧ r'.expanded = r.expanded ∧ r'.relaxed = r.relaxed ∧
    r'.program.encode = r.program.encode := by
  obtain ⟨r, hr⟩ := exists_ok_of_isOk (x := (ofLines [⟨[".a"], 1⟩, ⟨["JUC", ".b$r1"], 2⟩,
    ⟨[".b"], 3⟩, ⟨["MOV", "r2", ".a"], 4⟩]).resolve {}) (by decide +kernel)
  have hsymbols : ((ofLines [⟨[".a"], 1⟩, ⟨["JUC", ".b$r1"], 2⟩, ⟨[".b"], 3⟩,
      ⟨["MOV", "r2", ".a"], 4⟩]).resolve {}).toOption.map Resolution.symbols =
      some [⟨".a", 0⟩, ⟨".b", 1⟩] := by decide +kernel
  rw [hr] at hsymbols
  obtain ⟨-, r', hr', hlines, hrenamed, hrest⟩ := resolve_rename
    (Equiv.swap (⟨".a", by decide +kernel⟩ : Label.Name {}) ⟨".b", by decide +kernel⟩).injective
    (by decide +kernel) hr
  have hprogram : List.map (Line.rename (Equiv.swap (⟨".a", by decide +kernel⟩ : Label.Name {})
      ⟨".b", by decide +kernel⟩)) [⟨[".a"], 1⟩, ⟨["JUC", ".b$r1"], 2⟩, ⟨[".b"], 3⟩,
        ⟨["MOV", "r2", ".a"], 4⟩] =
      [⟨[".b"], 1⟩, ⟨["JUC", ".a$r1"], 2⟩, ⟨[".a"], 3⟩, ⟨["MOV", "r2", ".b"], 4⟩] := by
    decide +kernel
  obtain hsymbols : r.symbols = [⟨".a", 0⟩, ⟨".b", 1⟩] := Option.some.inj hsymbols
  rw [hprogram] at hr'
  rw [hsymbols] at hrenamed
  exact ⟨r, r', hr, hr', hlines, hsymbols, hrenamed.trans (by decide +kernel), hrest⟩

end CompactRisc
