import CompactRisc.Proofs.Relocation
import CompactRisc.Proofs.Renumbering

/-!
# Programs that correspond

Two lists of lines correspond if they differ in the names of the labels and in the numbers of the
lines only. Nothing is decided by either: the one is resolved if the other one is, to the same
lines up to their numbers, and each label has the address that its counterpart has.

Results:
* `Line.Becomes.corresponds`: the blocks of two lines that correspond.
* `Outline.items_corresponds`: corresponding lines have the same outline, and so the same sizes.
* `Program.resolve_corresponds`: the resolutions of two programs that correspond.
* `assembleLines_renumber`: the assemblies of two sources that differ in the numbers of their lines
  once the defines have been put to use.
-/
namespace CompactRisc

/-- A token, and the one for it if the labels have other names. The name of a label may change, what
stands after the separator may not; nor may a register, should it have the form of a label. -/
inductive Token.Corresponds (d : Dialect) (ρ : String → String) : String → String → Prop
  | other {token : String} (other : d.isLabel token = false) : Corresponds d ρ token token
  | label {token token' name : String} {parts : List (List Char)} (label : d.isLabel token = true)
      (label' : d.isLabel token' = true)
      (split : token.toList.splitOn d.loadSeparator = name.toList :: parts)
      (split' : token'.toList.splitOn d.loadSeparator = (ρ name).toList :: parts)
      (register : ∀ r : Register, token = r.name → token' = token) :
      Corresponds d ρ token token'

/-- A line, and the one for it if the labels have other names and the lines other numbers. -/
structure Line.Corresponds (d : Dialect) (ρ : String → String) (f : Nat → Nat) (l l' : Line) :
    Prop where
  source : l'.source = f l.source
  tokens : List.Forall₂ (Token.Corresponds d ρ) l.tokens l'.tokens
  declared : Label.declares d l = true →
    l'.first = ρ l.first ∧ (l.first ≠ d.labelMark → l'.first ≠ d.labelMark)

/-! ## Lines -/

namespace Token.Corresponds

variable {d : Dialect} {ρ : String → String} {token token' : String}

theorem isLabel_eq (h : Corresponds d ρ token token') : d.isLabel token' = d.isLabel token := by
  cases h with
  | other => rfl
  | label hlabel hlabel' => rw [hlabel, hlabel']

theorem eq_of_other (h : Corresponds d ρ token token') (hother : d.isLabel token = false) :
    token' = token := by
  cases h with
  | other => rfl
  | label hlabel => cases hlabel.symm.trans hother

theorem eq_of_register {r : Register} (h : Corresponds d ρ r.name token') : token' = r.name := by
  cases h with
  | other => rfl
  | label _ _ _ _ hregister => exact hregister r rfl

theorem split_eq (h : Corresponds d ρ token token') (hlabel : d.isLabel token = true)
    {name : String} {parts : List (List Char)}
    (hsplit : token.toList.splitOn d.loadSeparator = name.toList :: parts) :
    token'.toList.splitOn d.loadSeparator = (ρ name).toList :: parts := by
  cases h with
  | other hother => cases hlabel.symm.trans hother
  | label _ _ hsplit₀ hsplit' =>
    rw [hsplit, List.cons.injEq, String.toList_inj] at hsplit₀
    obtain ⟨rfl, rfl⟩ := hsplit₀
    exact hsplit'

theorem refl (d : Dialect) (token : String) : Corresponds d id token token := by
  cases h : d.isLabel token with
  | false => exact .other h
  | true =>
    obtain ⟨name, parts, hsplit⟩ :=
      List.exists_cons_of_ne_nil (List.splitOn_ne_nil d.loadSeparator token.toList)
    rw [← String.toList_ofList (l := name)] at hsplit
    exact .label h h hsplit hsplit fun _ _ => rfl

end Token.Corresponds

namespace Line.Corresponds

variable {d : Dialect} {ρ : String → String} {f : Nat → Nat} {l l' : Line}

theorem declares_eq (h : l.Corresponds d ρ f l') : Label.declares d l' = Label.declares d l := by
  obtain ⟨tokens, n⟩ := l
  obtain ⟨tokens', n'⟩ := l'
  cases h.tokens with
  | nil => rfl
  | cons htoken _ => exact htoken.isLabel_eq

theorem first_eq (h : l.Corresponds d ρ f l') (hbody : Label.declares d l = false) :
    l'.first = l.first := by
  obtain ⟨tokens, n⟩ := l
  obtain ⟨tokens', n'⟩ := l'
  cases h.tokens with
  | nil => rfl
  | cons htoken _ => exact htoken.eq_of_other hbody

theorem labelTokens (h : l.Corresponds d ρ f l') :
    List.Forall₂ (Token.Corresponds d ρ) (l.labelTokens d) (l'.labelTokens d) :=
  List.rel_filter (fun _ _ htoken => by simp only [htoken.isLabel_eq]) h.tokens

theorem mentioned?_eq (h : l.Corresponds d ρ f l') : l'.mentioned? d = (l.mentioned? d).map ρ := by
  have hall : ∀ token ∈ l.labelTokens d, d.isLabel token = true := fun _ => List.of_mem_filter
  have htokens := h.labelTokens
  unfold mentioned?
  cases hl : l.labelTokens d with
  | nil =>
    rw [hl, List.forall₂_nil_left_iff] at htokens
    rw [htokens]
    rfl
  | cons token tokens =>
    rw [hl, List.forall₂_cons_left_iff] at htokens
    obtain ⟨token', tokens', htoken, -, hl'⟩ := htokens
    rw [hl'] at *
    cases htoken with
    | other hother => cases (hall token (hl ▸ List.mem_cons_self)).symm.trans hother
    | label _ _ hsplit hsplit' => simp [hsplit, hsplit']

/-- A line that mentions no label is the same but for its number. -/
theorem eq_renumber (h : l.Corresponds d ρ f l') (hnone : l.labelTokens d = []) :
    l' = l.renumber f := by
  have hall : ∀ token ∈ l.tokens, d.isLabel token = false := by
    simpa [Line.labelTokens, List.filter_eq_nil_iff] using hnone
  have htokens : l'.tokens = l.tokens := by
    have hsame : List.Forall₂ (fun token token' => token = token') l.tokens l'.tokens := by
      refine List.forall₂_iff_get.2 ⟨h.tokens.length_eq, fun k hk hk' => ?_⟩
      have htoken := h.tokens.get hk hk'
      exact (htoken.eq_of_other (hall _ (List.get_mem _ _))).symm
    rw [List.forall₂_eq_eq_eq] at hsame
    exact hsame.symm
  obtain ⟨tokens', source'⟩ := l'
  rw [renumber, ← htokens, ← h.source]

theorem tokens_move (h : l.Corresponds d ρ f l') (hbody : Label.declares d l = false)
    {r : Register} {x : String} (hshape : l.tokens = ["MOV", r.name, x]) :
    ∃ x', l'.tokens = ["MOV", r.name, x'] ∧ Token.Corresponds d ρ x x' := by
  have htokens := h.tokens
  have hfirst := h.first_eq hbody
  rw [hshape] at htokens
  obtain ⟨m, tail, -, htail, hl'⟩ := List.forall₂_cons_left_iff.1 htokens
  obtain ⟨y, last, hy, hlast, rfl⟩ := List.forall₂_cons_left_iff.1 htail
  obtain ⟨x', none, hx, hnone, rfl⟩ := List.forall₂_cons_left_iff.1 hlast
  obtain rfl := List.forall₂_nil_left_iff.1 hnone
  rw [first, first, hshape, hl'] at hfirst
  obtain rfl : m = "MOV" := hfirst
  obtain rfl := hy.eq_of_register
  exact ⟨x', hl', hx⟩

theorem tokens_transfer (h : l.Corresponds d ρ f l') (hbody : Label.declares d l = false)
    {mnemonic token : String} (hshape : l.tokens = [mnemonic, token]) :
    ∃ token', l'.tokens = [mnemonic, token'] ∧ Token.Corresponds d ρ token token' := by
  have htokens := h.tokens
  have hfirst := h.first_eq hbody
  rw [hshape] at htokens
  obtain ⟨m, tail, -, htail, hl'⟩ := List.forall₂_cons_left_iff.1 htokens
  obtain ⟨token', none, htoken, hnone, rfl⟩ := List.forall₂_cons_left_iff.1 htail
  obtain rfl := List.forall₂_nil_left_iff.1 hnone
  rw [first, first, hshape, hl'] at hfirst
  obtain rfl : m = mnemonic := hfirst
  exact ⟨token', hl', htoken⟩

theorem labelTokens_singleton (h : l.Corresponds d ρ f l') {token : String}
    (hone : l.labelTokens d = [token]) : ∃ token', l'.labelTokens d = [token'] ∧
      Token.Corresponds d ρ token token' ∧
      ∀ x' ∈ l'.tokens, Token.Corresponds d ρ token x' → x' = token' := by
  have htokens := h.labelTokens
  rw [hone] at htokens
  obtain ⟨token', none, htoken, hnone, hl'⟩ := List.forall₂_cons_left_iff.1 htokens
  obtain rfl := List.forall₂_nil_left_iff.1 hnone
  refine ⟨token', hl', htoken, fun x' hx' hx => ?_⟩
  have hlabel : d.isLabel token = true := List.of_mem_filter (hone ▸ List.mem_singleton.2 rfl)
  have hmem : x' ∈ l'.labelTokens d := List.mem_filter.2 ⟨hx', by rw [hx.isLabel_eq, hlabel]⟩
  rw [hl', List.mem_singleton] at hmem
  exact hmem

theorem refers (h : l.Corresponds d ρ f l') (hbody : Label.declares d l = false)
    {names : List String} (hrefers : l.Refers d names) : l'.Refers d (names.map ρ) := by
  have hlabel : ∀ {token}, l.labelTokens d = [token] → d.isLabel token = true :=
    fun hone => List.of_mem_filter (hone ▸ List.mem_singleton.2 rfl)
  cases hrefers with
  | @move r name token x loading hone hdeclared hparts hshape hoperand =>
    obtain ⟨x', hshape', hx⟩ := h.tokens_move hbody hshape
    obtain ⟨token', hone', htoken, honly⟩ := h.labelTokens_singleton hone
    refine .move hone' (List.mem_map_of_mem hdeclared) (htoken.split_eq (hlabel hone) hparts)
      hshape' ?_
    rcases hoperand with rfl | ⟨r', rfl⟩
    · exact Or.inl (honly x' (by simp [hshape']) hx).symm
    · exact Or.inr ⟨r', hx.eq_of_register⟩
  | @transfer i name token loading hone hdeclared hparts hi htransfer hshape =>
    obtain ⟨token', hshape', htoken⟩ := h.tokens_transfer hbody hshape
    obtain ⟨token'', hone', -, honly⟩ := h.labelTokens_singleton hone
    obtain rfl := honly token' (by simp [hshape']) htoken
    exact .transfer hone' (List.mem_map_of_mem hdeclared) (htoken.split_eq (hlabel hone) hparts) hi
      htransfer hshape'

end Line.Corresponds

def Symbol.rename (ρ : String → String) (s : Symbol) : Symbol := { s with name := ρ s.name }

/-- The block of a line, if the lines correspond and the labels have the same addresses. -/
theorem Line.Becomes.corresponds {d : Dialect} {ρ : String → String} {f : Nat → Nat} {l l' : Line}
    {symbols : List Symbol} {q : Nat} {block : List Line} (hbecomes : l.Becomes d symbols q block)
    (h : l.Corresponds d ρ f l') (hbody : Label.declares d l = false) :
    l'.Becomes d (symbols.map (Symbol.rename ρ)) q (block.map (Line.renumber f)) := by
  have hsymbol : ∀ {name a}, ⟨name, a⟩ ∈ symbols → ⟨ρ name, a⟩ ∈ symbols.map (Symbol.rename ρ) :=
    fun hs => List.mem_map_of_mem (f := Symbol.rename ρ) hs
  have hmentioned : ∀ {name}, l.mentioned? d = some name → l'.mentioned? d = some (ρ name) := by
    intro name hname
    rw [h.mentioned?_eq, hname]
    rfl
  -- the operand of a transfer is the label that is mentioned
  have hlabel : ∀ {m token name}, l.tokens = [m, token] → l.mentioned? d = some name →
      d.isLabel token = true := by
    intro m token name hshape hname
    by_contra hother
    have hm : d.isLabel m = false := by simpa [Label.declares, first, hshape] using hbody
    have hnone : l.labelTokens d = [] := by simp [Line.labelTokens, hshape, hm, hother]
    cases hname.symm.trans (Outline.mentioned?_eq_none.2 hnone)
  cases hbecomes with
  | plain hnone =>
    obtain rfl := h.eq_renumber hnone
    exact .plain hnone
  | load hmentions hs hshape =>
    obtain ⟨x', hshape', -⟩ := h.tokens_move hbody hshape
    simp only [List.map_cons, List.map_nil, renumber, ← h.source]
    exact .load (hmentioned hmentions) (hsymbol hs) hshape'
  | far hmentions hs hi htransfer hshape hloading =>
    obtain ⟨token', hshape', htoken⟩ := h.tokens_transfer hbody hshape
    simp only [List.map_cons, List.map_nil, renumber, ← h.source]
    exact .far (hmentioned hmentions) (hsymbol hs) hi htransfer hshape'
      (htoken.split_eq (hlabel hshape hmentions) hloading)
  | near hmentions hs hi hform hshape hloading hrange hleast hgreatest =>
    obtain ⟨token', hshape', htoken⟩ := h.tokens_transfer hbody hshape
    simp only [List.map_cons, List.map_nil, renumber, ← h.source]
    exact .near (hmentioned hmentions) (hsymbol hs) hi hform hshape'
      (htoken.split_eq (hlabel hshape hmentions) hloading) hrange hleast hgreatest

/-! ## Lists of lines -/

/-- The declaration under another name and on a line with another number. -/
def Declaration.rename (ρ : String → String) (f : Nat → Nat) (δ : Declaration) : Declaration :=
  { δ with name := ρ δ.name, line := f δ.line }

section Lists

variable {d : Dialect} {ρ : String → String} {f : Nat → Nat} {lines lines' : List Line}

theorem body_corresponds (h : List.Forall₂ (Line.Corresponds d ρ f) lines lines') :
    List.Forall₂ (fun l l' => Label.declares d l = false ∧ l.Corresponds d ρ f l') (body d lines)
      (body d lines') := by
  refine (List.forall₂_and_left _ _).2 ⟨fun l hl => body_not_label hl, ?_⟩
  exact List.rel_filter (fun _ _ hline => by simp only [hline.declares_eq]) h

theorem declarations_corresponds (h : List.Forall₂ (Line.Corresponds d ρ f) lines lines')
    (k : Nat) : declarations d k lines' = (declarations d k lines).map (Declaration.rename ρ f) := by
  induction h generalizing k with
  | nil => rfl
  | @cons l l' lines lines' hline _ ih =>
    rw [declarations, declarations, hline.declares_eq]
    split
    · rename_i hdeclares
      rw [List.map_cons, ih, (hline.declared hdeclares).1, hline.source]
      rfl
    · exact ih (k + 1)

theorem declaredNames_corresponds (h : List.Forall₂ (Line.Corresponds d ρ f) lines lines') :
    declaredNames d lines' = (declaredNames d lines).map ρ := by
  rw [← map_name_declarations d lines' 0, ← map_name_declarations d lines 0,
    declarations_corresponds h, List.map_map, List.map_map]
  rfl

namespace Outline

theorem mentioned_corresponds (h : List.Forall₂ (Line.Corresponds d ρ f) lines lines') :
    mentioned d lines' = (mentioned d lines).map ρ := by
  have hbody := body_corresponds h
  unfold mentioned
  generalize body d lines = A at hbody
  generalize body d lines' = A' at hbody
  induction hbody with
  | nil => rfl
  | @cons l l' A A' hline _ ih =>
    rw [List.filterMap_cons, List.filterMap_cons, hline.2.mentioned?_eq]
    cases l.mentioned? d with
    | none => exact ih
    | some name => exact congrArg (ρ name :: ·) ih

/-- A name stands for the same line of the body as its counterpart. -/
theorem target_rename (hρ : Function.Injective ρ) (D : List Declaration) (name : String) :
    target (D.map (Declaration.rename ρ f)) (ρ name) = target D name := by
  have hname : ((·.name == ρ name) ∘ Declaration.rename ρ f : Declaration → Bool) =
      (·.name == name) := by
    funext δ
    simp [Declaration.rename, hρ.eq_iff]
  rw [target, target, List.find?_map, hname, Option.map_map]
  rfl

theorem items_corresponds (hρ : Function.Injective ρ)
    (h : List.Forall₂ (Line.Corresponds d ρ f) lines lines') : items d lines' = items d lines := by
  rw [items, declarations_corresponds h]
  refine map_eq_of_forall₂ (body_corresponds h) fun l l' hline => ?_
  unfold item
  rw [hline.2.mentioned?_eq, hline.2.first_eq hline.1]
  cases l.mentioned? d with
  | none => rfl
  | some name => simp only [Option.map_some, target_rename hρ]

end Outline

end Lists

/-! ## Resolutions -/

theorem Program.exists_resolve_corresponds {d : Dialect} {ρ : String → String} {f : Nat → Nat}
    (hρ : Function.Injective ρ) {p p' : Program} (hp : p.Valid) (hp' : p'.Valid)
    (h : List.Forall₂ (Line.Corresponds d ρ f) p.lines p'.lines)
    (hr : ∃ r, p.resolve d = .ok r) : ∃ r', p'.resolve d = .ok r' := by
  obtain ⟨hwell, hnodup, hlast, hbody⟩ := (exists_resolve_iff hp).1 hr
  refine (exists_resolve_iff hp').2 ⟨fun l' hl' hdeclares => ?_, ?_, fun l' hl' => ?_,
    fun l' hl' => ?_⟩
  · obtain ⟨l, hl, hline⟩ := exists_left_of_forall₂ h hl'
    rw [hline.declares_eq] at hdeclares
    obtain ⟨hlength, hmark⟩ := hwell l hl hdeclares
    exact ⟨by rw [← hline.tokens.length_eq, hlength], (hline.declared hdeclares).2 hmark⟩
  · rw [declaredNames_corresponds h]
    exact hnodup.map hρ
  · rw [Option.mem_def, List.getLast?_eq_getElem?, ← h.length_eq] at hl'
    obtain ⟨l, hl, hline⟩ := getElem?_left_of_forall₂ h hl'
    rw [hline.declares_eq]
    exact hlast l (by rw [Option.mem_def, List.getLast?_eq_getElem?, hl])
  · obtain ⟨l, hl, hother, hline⟩ := exists_left_of_forall₂ (body_corresponds h) hl'
    rw [declaredNames_corresponds h]
    rcases hbody l hl with hnone | hrefers
    · rw [hline.eq_renumber hnone]
      exact Or.inl hnone
    · exact Or.inr (hline.refers hother hrefers)

namespace LaidOut

variable {d : Dialect} {ρ : String → String} {f : Nat → Nat} {lines lines' : List Line}
  {r r' : Resolution} {blocks blocks' : List (List Line)}

theorem sizes_corresponds (hρ : Function.Injective ρ)
    (h : List.Forall₂ (Line.Corresponds d ρ f) lines lines') :
    Outline.sizes d lines' = Outline.sizes d lines := by
  rw [Outline.sizes, Outline.items_corresponds hρ h]
  rfl

theorem symbols_corresponds (hρ : Function.Injective ρ)
    (h : List.Forall₂ (Line.Corresponds d ρ f) lines lines') (hout : LaidOut d lines r blocks)
    (hout' : LaidOut d lines' r' blocks') : r'.symbols = r.symbols.map (Symbol.rename ρ) := by
  rw [hout'.symbols, hout.symbols, sizes_corresponds hρ h, declarations_corresponds h,
    List.map_map, List.map_map]
  rfl

theorem blocks_corresponds (hρ : Function.Injective ρ)
    (h : List.Forall₂ (Line.Corresponds d ρ f) lines lines') (hout : LaidOut d lines r blocks)
    (hout' : LaidOut d lines' r' blocks') :
    blocks' = blocks.map (List.map (Line.renumber f)) := by
  have hsizes := sizes_corresponds hρ h
  have hnodup : (r'.symbols.map Symbol.name).Nodup := by
    rw [hout'.map_name_symbols]
    exact hout'.nodup
  apply List.ext_getElem?
  intro k
  rw [List.getElem?_map]
  cases hk : (body d lines)[k]? with
  | none =>
    rw [List.getElem?_eq_none_iff, ← hout.length_eq] at hk
    have hk' : blocks'.length ≤ k := by
      rw [hout'.length_eq, ← (body_corresponds h).length_eq, ← hout.length_eq]
      exact hk
    rw [List.getElem?_eq_none hk, List.getElem?_eq_none hk']
    rfl
  | some l =>
    obtain ⟨l', hk', hbody, hline⟩ := getElem?_right_of_forall₂ (body_corresponds h) hk
    obtain ⟨block, hblock, hbecomes⟩ := hout.becomes hk
    obtain ⟨block', hblock', hbecomes'⟩ := hout'.becomes hk'
    have hlength : block'.length = (block.map (Line.renumber f)).length := by
      have hsize := congrArg (·[k]?) hsizes
      simp only [← hout'.lengths, ← hout.lengths, List.getElem?_map, hblock, hblock',
        Option.map_some, Option.some.injEq] at hsize
      rw [hsize, List.length_map]
    -- the block that corresponds is a block of the second line, and a line has only one
    have hmapped := hbecomes.corresponds hline hbody
    rw [← symbols_corresponds hρ h hout hout', ← hsizes] at hmapped
    have hmoves := hmapped.moves (n := 0) hbecomes' hlength fun {name a a'} ha ha' => by
      have hfind := find?_of_mem hnodup ha
      have hfind' := find?_of_mem hnodup ha'
      cases hfind.symm.trans hfind'
      rfl
    rw [hblock, hblock', hmoves.eq_of_zero]
    rfl

theorem warnings_corresponds (hρ : Function.Injective ρ)
    (h : List.Forall₂ (Line.Corresponds d ρ f) lines lines') (hout : LaidOut d lines r blocks)
    (hout' : LaidOut d lines' r' blocks') : ∃ unused : List Declaration,
      r.warnings = unused.map (fun δ => .unusedLabel δ.name δ.line) ∧
      r'.warnings = unused.map fun δ => .unusedLabel (ρ δ.name) (f δ.line) := by
  refine ⟨_, hout.warnings, ?_⟩
  rw [hout'.warnings, declarations_corresponds h, Outline.mentioned_corresponds h, List.filter_map,
    List.map_map]
  congr 1
  refine List.filter_congr fun δ _ => decide_eq_decide.2 (not_congr ?_)
  exact List.mem_map_of_injective hρ

theorem counts_corresponds (hρ : Function.Injective ρ)
    (h : List.Forall₂ (Line.Corresponds d ρ f) lines lines') (hout : LaidOut d lines r blocks)
    (hout' : LaidOut d lines' r' blocks') : r'.expanded = r.expanded ∧ r'.relaxed = r.relaxed := by
  have hmentions : (body d lines').map (fun l => (l.mentioned? d).isSome) =
      (body d lines).map fun l => (l.mentioned? d).isSome := by
    refine map_eq_of_forall₂ (body_corresponds h) fun l l' hline => ?_
    rw [hline.2.mentioned?_eq, Option.isSome_map]
  have hexpanded : ∀ {lines : List Line} {r : Resolution} {blocks}, LaidOut d lines r blocks →
      r.expanded = ((body d lines).map fun l => (l.mentioned? d).isSome).countP id := by
    intro lines r blocks hout
    rw [hout.expanded, List.countP_map]
    rfl
  have hrelaxed : ∀ {lines : List Line} {r : Resolution} {blocks}, LaidOut d lines r blocks →
      r.relaxed = (((body d lines).map fun l => (l.mentioned? d).isSome).zip
        (Outline.sizes d lines)).countP fun x => x.1 && x.2 == 1 := by
    intro lines r blocks hout
    rw [hout.relaxed, List.zip_map_left, List.countP_map]
    rfl
  rw [hexpanded hout', hexpanded hout, hrelaxed hout', hrelaxed hout, hmentions,
    sizes_corresponds hρ h]
  exact ⟨rfl, rfl⟩

end LaidOut

theorem Program.resolve_corresponds {d : Dialect} {ρ : String → String} {f : Nat → Nat}
    (hρ : Function.Injective ρ) {p p' : Program} (hp : p.Valid) (hp' : p'.Valid)
    (h : List.Forall₂ (Line.Corresponds d ρ f) p.lines p'.lines) {r : Resolution}
    (hr : p.resolve d = .ok r) : ∃ r', p'.resolve d = .ok r' ∧
      r'.program.lines = r.program.lines.map (Line.renumber f) ∧
      r'.symbols = r.symbols.map (Symbol.rename ρ) ∧
      (∃ unused : List Declaration,
        r.warnings = unused.map (fun δ => .unusedLabel δ.name δ.line) ∧
        r'.warnings = unused.map fun δ => .unusedLabel (ρ δ.name) (f δ.line)) ∧
      r'.expanded = r.expanded ∧ r'.relaxed = r.relaxed := by
  obtain ⟨r', hr'⟩ := exists_resolve_corresponds hρ hp hp' h ⟨r, hr⟩
  obtain ⟨blocks, hout⟩ := laidOut hp hr
  obtain ⟨blocks', hout'⟩ := laidOut hp' hr'
  refine ⟨r', hr', ?_, hout.symbols_corresponds hρ h hout', hout.warnings_corresponds hρ h hout',
    hout.counts_corresponds hρ h hout'⟩
  rw [hout'.program, hout.program, hout.blocks_corresponds hρ h hout', List.map_flatten]

/-! ## Assemblies -/

theorem Line.corresponds_renumber (d : Dialect) (f : Nat → Nat) (l : Line) :
    l.Corresponds d id f (l.renumber f) where
  source := rfl
  tokens := List.forall₂_same.2 fun token _ => .refl d token
  declared := fun _ => ⟨rfl, id⟩

/-- Two sources that differ in the numbers of their lines, once the defines have been put to use,
have the same assembly up to these numbers. -/
theorem assembleLines_renumber {d : Dialect} {f : Nat → Nat} {raw raw' : List String}
    (hwell : Defines.WellFormed d (Source.lines d raw'))
    (hrest : Defines.rest d (Source.lines d raw') =
      (Defines.rest d (Source.lines d raw)).map (Line.renumber f)) {A : Assembly}
    (h : assembleLines d raw = .ok A) : ∃ A', assembleLines d raw' = .ok A' ∧
      A'.words = A.words ∧ A'.program.lines = A.program.lines.map (Line.renumber f) ∧
      A'.symbols = A.symbols ∧ A'.warnings = A.warnings.map (Warning.renumber f) := by
  obtain ⟨p, r, words, hp, hr, hwords, rfl⟩ := assembleLines_eq_ok.1 h
  obtain ⟨p', hp'⟩ := exists_preprocess_eq_ok.2 hwell
  obtain ⟨hvalid, -, hlines⟩ := preprocess_eq_ok hp
  obtain ⟨hvalid', -, hlines'⟩ := preprocess_eq_ok hp'
  have hcorresponds : List.Forall₂ (Line.Corresponds d id f) p.lines p'.lines := by
    rw [hlines', hrest, hlines, List.forall₂_map_right_iff, List.forall₂_same]
    exact fun l _ => l.corresponds_renumber d f
  obtain ⟨r', hr', hprogram, hsymbols, ⟨unused, hwarnings, hwarnings'⟩, -⟩ :=
    Program.resolve_corresponds Function.injective_id hvalid hvalid' hcorresponds hr
  have hencode : r'.program.encode = .ok words := by
    rw [Program.encode, hprogram, mapM_eq_ok, List.forall₂_map_left_iff]
    refine (mapM_eq_ok.1 hwords).imp fun l w hw => ?_
    rw [Line.encode_renumber, hw]
    rfl
  refine ⟨_, assembleLines_eq_ok.2 ⟨p', r', words, hp', hr', hencode, rfl⟩, rfl, hprogram, ?_, ?_⟩
  · exact hsymbols.trans (List.map_id _)
  · rw [hwarnings', hwarnings, List.map_map]
    rfl

end CompactRisc
