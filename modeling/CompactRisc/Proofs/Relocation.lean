import CompactRisc.Proofs.Acceptance

/-!
# Programs one after the other

The layout of a program depends neither on what stands before it nor on what stands after it. Two
programs that declare different labels can be put together: the result of the first one stays as it
is, and that of the second one is moved up, which changes the addresses that it loads and nothing
else.

Results:
* `Sizing.finalSizes_append`, `Outline.sizes_append`: which transfers become short is decided in
  each program by itself.
* `Program.exists_resolve_append`: programs that are resolved each by itself are resolved together.
* `Line.Becomes.moves`: the block of a line in two places.
* `Program.resolve_append`: the resolution of two programs together, from that of each.
-/
namespace CompactRisc

/-! ## Sizes -/

namespace Sizing

/-- The item of a line that stands `n` lines further down, together with all that it refers to. -/
def Item.shift (n : Nat) : Item → Item
  | plain => plain
  | load target => load (target + n)
  | transfer target least greatest => transfer (target + n) least greatest

theorem Item.shift_zero (item : Item) : item.shift 0 = item := by cases item <;> rfl

@[simp] theorem Item.size_shift (n : Nat) (item : Item) : (item.shift n).size = item.size := by
  cases item <;> rfl

/-- All items refer to lines of the list, or to its end. -/
def Closed (items : List Item) : Prop :=
  ∀ item ∈ items, ∀ target ∈ item.target?, target ≤ items.length

theorem address_append_left {s : List Nat} {k : Nat} (h : k ≤ s.length) (t : List Nat) :
    address (s ++ t) k = address s k := by
  rw [address, address, List.take_append_of_le_length h]

theorem address_append_right (s t : List Nat) (k : Nat) :
    address (s ++ t) (s.length + k) = s.sum + address t k := by
  rw [address, address, List.take_length_add_append, List.sum_append]

theorem reach_append_left {s : List Nat} {target k : Nat} (htarget : target ≤ s.length)
    (hk : k ≤ s.length) (t : List Nat) : reach (s ++ t) target k = reach s target k := by
  rw [reach, reach, address_append_left htarget, address_append_left hk]

/-- A displacement does not depend on where the program starts. -/
theorem reach_append_right (s t : List Nat) (target k : Nat) :
    reach (s ++ t) (s.length + target) (s.length + k) = reach t target k := by
  rw [reach, reach, address_append_right, address_append_right]
  omega

variable {I J : List Item} {s t : List Nat}

/-- A step in the first list does not look at the second one. -/
theorem shorten_append_left (hclosed : Closed I) (hlen : s.length = I.length) {k : Nat}
    (hk : k < I.length) (J : List Item) (t : List Nat) :
    shorten (I ++ J) (s ++ t) k = shorten I s k ++ t := by
  unfold shorten
  rw [List.getElem?_append_left hk]
  cases hitem : I[k]? with
  | none => rfl
  | some item =>
    cases item with
    | plain => rfl
    | load => rfl
    | transfer target least greatest =>
      have htarget : target ≤ s.length := by
        rw [hlen]
        exact hclosed _ (List.mem_of_getElem? hitem) target rfl
      simp only [reach_append_left htarget (hlen ▸ Nat.le_of_lt hk)]
      split
      · rw [List.set_append_left _ _ (hlen ▸ hk)]
      · rfl

theorem shorten_append_right (hlen : s.length = I.length) (J : List Item) (t : List Nat) (k : Nat) :
    shorten (I ++ J.map (Item.shift I.length)) (s ++ t) (I.length + k) = s ++ shorten J t k := by
  unfold shorten
  rw [List.getElem?_append_right (Nat.le_add_right _ _), Nat.add_sub_cancel_left,
    List.getElem?_map, ← hlen]
  cases hitem : J[k]? with
  | none => rfl
  | some item =>
    cases item with
    | plain => rfl
    | load => rfl
    | transfer target least greatest =>
      simp only [Option.map_some, Item.shift, Nat.add_comm target, reach_append_right]
      split
      · rw [List.set_append_right _ _ (Nat.le_add_right _ _), Nat.add_sub_cancel_left]
      · rfl

theorem sizesAfter_append_left (hclosed : Closed I) (J : List Item) :
    ∀ k ≤ I.length, sizesAfter (I ++ J) k = sizesAfter I k ++ J.map Item.size
  | 0, _ => by simp [sizesAfter]
  | k + 1, hk => by
    rw [sizesAfter_succ, sizesAfter_succ, sizesAfter_append_left hclosed J k (by omega),
      shorten_append_left hclosed (length_sizesAfter I k) (by omega)]

theorem sizesAfter_append_right (hclosed : Closed I) (J : List Item) :
    ∀ k, sizesAfter (I ++ J.map (Item.shift I.length)) (I.length + k) =
      finalSizes I ++ sizesAfter J k
  | 0 => by
    have hsizes : (J.map (Item.shift I.length)).map Item.size = J.map Item.size := by simp
    rw [Nat.add_zero, sizesAfter_append_left hclosed _ _ (Nat.le_refl _), hsizes]
    rfl
  | k + 1 => by
    rw [← Nat.add_assoc, sizesAfter_succ, sizesAfter_append_right hclosed J k, finalSizes,
      shorten_append_right (length_sizesAfter I _), sizesAfter_succ]

/-- Which transfers become short is decided in each list by itself. -/
theorem finalSizes_append (hclosed : Closed I) (J : List Item) :
    finalSizes (I ++ J.map (Item.shift I.length)) = finalSizes I ++ finalSizes J := by
  rw [finalSizes, List.length_append, List.length_map, sizesAfter_append_right hclosed]
  rfl

end Sizing

/-! ## Declarations -/

/-- The declaration, if `n` more lines of the body stand before it. -/
def Declaration.shift (n : Nat) (δ : Declaration) : Declaration :=
  { δ with target := δ.target + n }

theorem declarations_add (d : Dialect) (lines : List Line) (k : Nat) :
    ∀ n, declarations d (k + n) lines = (declarations d k lines).map (Declaration.shift n)
  | 0 => (List.map_id _).symm
  | n + 1 => by
    rw [← Nat.add_assoc, declarations_succ, declarations_add d lines k n, List.map_map]
    rfl

theorem body_append (d : Dialect) (P Q : List Line) : body d (P ++ Q) = body d P ++ body d Q :=
  List.filter_append _ _

theorem declaredNames_append (d : Dialect) (P Q : List Line) :
    declaredNames d (P ++ Q) = declaredNames d P ++ declaredNames d Q := by
  rw [declaredNames, List.filter_append, List.map_append]
  rfl

theorem declarations_append (d : Dialect) (P Q : List Line) (k : Nat) :
    declarations d k (P ++ Q) =
      declarations d k P ++ declarations d (k + (body d P).length) Q := by
  induction P generalizing k with
  | nil => rfl
  | cons l P ih =>
    rw [List.cons_append, declarations, declarations]
    split
    · rename_i hl
      have hbody : body d (l :: P) = body d P := by simp [body, hl]
      rw [ih, hbody, List.cons_append]
    · rename_i hl
      have hbody : body d (l :: P) = l :: body d P := by simp [body, hl]
      rw [ih, hbody, List.length_cons, Nat.add_right_comm, Nat.add_assoc k]

namespace Outline

variable {d : Dialect} {P Q : List Line}

theorem mentioned_append (d : Dialect) (P Q : List Line) :
    mentioned d (P ++ Q) = mentioned d P ++ mentioned d Q := by
  rw [mentioned, body_append, List.filterMap_append]
  rfl

theorem target_append_left {D : List Declaration} {name : String}
    (h : name ∈ D.map Declaration.name) (E : List Declaration) :
    target (D ++ E) name = target D name := by
  obtain ⟨δ, hδ, rfl⟩ := List.mem_map.1 h
  cases hfind : D.find? (·.name == δ.name) with
  | none =>
    have := List.find?_eq_none.1 hfind δ hδ
    simp at this
  | some δ' => rw [target, target, List.find?_append, hfind, Option.some_or]

theorem target_append_right {D E : List Declaration} {name : String}
    (hD : name ∉ D.map Declaration.name) (hE : name ∈ E.map Declaration.name) (n : Nat) :
    target (D ++ E.map (Declaration.shift n)) name = target E name + n := by
  have hnone : D.find? (·.name == name) = none := by
    rw [List.find?_eq_none]
    intro δ hδ he
    exact hD (List.mem_map.2 ⟨δ, hδ, by simpa using he⟩)
  obtain ⟨δ, hδ, rfl⟩ := List.mem_map.1 hE
  have hcomp : ((·.name == δ.name) ∘ Declaration.shift n : Declaration → Bool) =
      (·.name == δ.name) := rfl
  cases hfind : E.find? (·.name == δ.name) with
  | none =>
    have := List.find?_eq_none.1 hfind δ hδ
    simp at this
  | some δ' =>
    rw [target, target, List.find?_append, hnone, Option.none_or, List.find?_map, hcomp, hfind]
    rfl

/-- The item of a line is taken from the declarations of the label that it mentions. -/
theorem item_congr {D E : List Declaration} {n : Nat} {l : Line}
    (h : ∀ name ∈ l.mentioned? d, target E name = target D name + n) :
    item d E l = (item d D l).shift n := by
  unfold item
  cases hname : l.mentioned? d with
  | none => rfl
  | some name =>
    have htarget := h name hname
    dsimp only
    split <;> simp only [Sizing.Item.shift, htarget]

theorem closed_items (htarget : ∀ δ ∈ declarations d 0 P, δ.target < (body d P).length) :
    Sizing.Closed (items d P) := by
  have hle : ∀ name, target (declarations d 0 P) name ≤ (body d P).length := by
    intro name
    rw [target]
    cases hfind : (declarations d 0 P).find? (·.name == name) with
    | none => exact Nat.zero_le _
    | some δ => exact Nat.le_of_lt (htarget δ (List.mem_of_find?_eq_some hfind))
  intro x hx t ht
  obtain ⟨l, -, rfl⟩ := List.mem_map.1 hx
  rw [items, List.length_map]
  unfold item at ht
  split at ht
  · cases ht
  · split at ht <;> cases ht <;> exact hle _

/-- The outline of two programs that mention no label but their own. -/
theorem items_append (hP : mentioned d P ⊆ declaredNames d P)
    (hQ : mentioned d Q ⊆ declaredNames d Q)
    (hdisjoint : List.Disjoint (declaredNames d P) (declaredNames d Q)) :
    items d (P ++ Q) = items d P ++ (items d Q).map (Sizing.Item.shift (items d P).length) := by
  have hdeclarations : declarations d 0 (P ++ Q) = declarations d 0 P ++
      (declarations d 0 Q).map (Declaration.shift (body d P).length) := by
    rw [declarations_append, declarations_add]
  have hlen : (items d P).length = (body d P).length := List.length_map _
  rw [hlen, items, hdeclarations, body_append, List.map_append, items, items, List.map_map]
  refine congrArg₂ _ (List.map_congr_left fun l hl => ?_) (List.map_congr_left fun l hl => ?_)
  · rw [← Sizing.Item.shift_zero (item d (declarations d 0 P) l)]
    refine item_congr fun name hname => ?_
    have hin := hP (List.mem_filterMap.2 ⟨l, hl, hname⟩)
    rw [← map_name_declarations d P 0] at hin
    exact target_append_left hin _
  · refine item_congr fun name hname => ?_
    have hin := hQ (List.mem_filterMap.2 ⟨l, hl, hname⟩)
    have hout : name ∉ declaredNames d P := fun h => hdisjoint h hin
    rw [← map_name_declarations d Q 0] at hin
    rw [← map_name_declarations d P 0] at hout
    exact target_append_right hout hin _

end Outline

/-! ## Programs that are resolved together -/

theorem Line.exists_use_of_subset {d : Dialect} {lines lines' : List Line}
    {labels labels' : Array Label} {ids ids' : List LineId}
    (hlabels : labels.toList = (declarations d 0 lines).map (Declaration.label ids))
    (hlabels' : labels'.toList = (declarations d 0 lines').map (Declaration.label ids'))
    (hsubset : declaredNames d lines ⊆ declaredNames d lines') {l : Line}
    (hfirst : d.isLabel l.first = false) (h : ∃ u?, l.use d labels = .ok u?) :
    ∃ u?, l.use d labels' = .ok u? := by
  have hnames : ∀ {token label loading}, Mention.Names d labels token label loading →
      ∃ label', Mention.Names d labels' token label' loading := by
    intro token label loading hn
    have hdeclared := hsubset ((find?_labels hlabels).1 ⟨label, rfl, hn.2⟩)
    obtain ⟨label', hname, hfind⟩ := (find?_labels hlabels').2 hdeclared
    exact ⟨label', by rw [hname]; exact hn.1, hfind⟩
  obtain ⟨u?, hu⟩ := h
  cases u? with
  | none => exact ⟨none, use_eq_none.2 (use_eq_none.1 hu)⟩
  | some u =>
    cases uses_of_use hfirst hu with
    | move hone hn hshape hoperand =>
      obtain ⟨label', hn'⟩ := hnames hn
      exact ⟨_, use_of_uses hfirst (.move hone hn' hshape hoperand)⟩
    | transfer hone hn hi hform hshape =>
      obtain ⟨label', hn'⟩ := hnames hn
      exact ⟨_, use_of_uses hfirst (.transfer hone hn' hi hform hshape)⟩

theorem Program.exists_resolve_append {d : Dialect} {P Q : List Line} {rP rQ : Resolution}
    (hP : (ofLines P).resolve d = .ok rP) (hQ : (ofLines Q).resolve d = .ok rQ)
    (hdisjoint : List.Disjoint (declaredNames d P) (declaredNames d Q)) :
    ∃ r, (ofLines (P ++ Q)).resolve d = .ok r := by
  obtain ⟨labelsP, bsP, hlabelsP, hresP⟩ := resolved (valid_ofLines P) hP
  obtain ⟨labelsQ, bsQ, hlabelsQ, hresQ⟩ := resolved (valid_ofLines Q) hQ
  have huseP := (exists_resolve (valid_ofLines P) hlabelsP).1 ⟨rP, hP⟩
  have huseQ := (exists_resolve (valid_ofLines Q) hlabelsQ).1 ⟨rQ, hQ⟩
  obtain ⟨hwellP, hnodupP, hlastP⟩ := Label.exists_ofProgram_eq_ok.1 ⟨labelsP, hlabelsP⟩
  obtain ⟨hwellQ, hnodupQ, hlastQ⟩ := Label.exists_ofProgram_eq_ok.1 ⟨labelsQ, hlabelsQ⟩
  have heqP := hresP.labels_eq
  have heqQ := hresQ.labels_eq
  rw [lines_ofLines] at huseP huseQ hwellP hwellQ hnodupP hnodupQ hlastP hlastQ heqP heqQ
  obtain ⟨labels, hlabels⟩ : ∃ labels, Label.ofProgram d (ofLines (P ++ Q)) = .ok labels := by
    rw [Label.exists_ofProgram_eq_ok, lines_ofLines, declaredNames_append, List.getLast?_append]
    refine ⟨List.forall_mem_append.2 ⟨hwellP, hwellQ⟩, ?_, fun l hl => ?_⟩
    · exact List.nodup_append'.2 ⟨hnodupP, hnodupQ, hdisjoint⟩
    · rcases Option.or_eq_some_iff.1 hl with hl | ⟨-, hl⟩
      · exact hlastQ l hl
      · exact hlastP l hl
  have heq := Label.ofProgram_eq_ok hlabels
  rw [lines_ofLines] at heq
  rw [exists_resolve (valid_ofLines _) hlabels, lines_ofLines, body_append,
    List.forall_mem_append]
  have hnames := declaredNames_append d P Q
  refine ⟨fun l hl => ?_, fun l hl => ?_⟩
  · exact Line.exists_use_of_subset heqP heq (hnames ▸ List.subset_append_left _ _)
      (body_not_label hl) (huseP l hl)
  · exact Line.exists_use_of_subset heqQ heq (hnames ▸ List.subset_append_right _ _)
      (body_not_label hl) (huseQ l hl)

/-! ## Blocks that are moved -/

open Layout

/-- The loads of the two bytes of an address. -/
def Line.loads (r : Register) (a source : Nat) : List Line :=
  [⟨["MOVIL", r.name, lowByte a], source⟩, ⟨["MOVIU", r.name, highByte a], source⟩]

/-- The first block is that of the line at `q`, and the second one that of the line `n` words further
up. They are the same but for the loads of the address that the line refers to. -/
structure Line.Moves (d : Dialect) (symbols symbols' : List Symbol) (q n : Nat) (l : Line)
    (block block' : List Line) : Prop where
  before : l.Becomes d symbols q block
  after : l.Becomes d symbols' (q + n) block'
  change : block' = block ∨ ∃ name a r rest, l.mentioned? d = some name ∧ ⟨name, a⟩ ∈ symbols ∧
    block = loads r a l.source ++ rest ∧ block' = loads r (a + n) l.source ++ rest

theorem Line.Moves.eq_of_zero {d : Dialect} {symbols symbols' : List Symbol} {q : Nat} {l : Line}
    {block block' : List Line} (h : l.Moves d symbols symbols' q 0 block block') :
    block' = block := by
  rcases h.change with h | ⟨name, a, r, rest, -, -, rfl, rfl⟩
  · exact h
  · rfl

/-- If a line and the label that it refers to both stand `n` words further up, the block of the line
is moved. -/
theorem Line.Becomes.moves {d : Dialect} {symbols symbols' : List Symbol} {q n : Nat} {l : Line}
    {block block' : List Line} (h : l.Becomes d symbols q block)
    (h' : l.Becomes d symbols' (q + n) block') (hlength : block'.length = block.length)
    (hsymbols : ∀ {name a a'}, ⟨name, a⟩ ∈ symbols → ⟨name, a'⟩ ∈ symbols' → a' = a + n) :
    l.Moves d symbols symbols' q n block block' := by
  refine ⟨h, h', ?_⟩
  cases h with
  | plain hnone => exact .inl (h'.eq_singleton hnone)
  | @load r a name source hmentions hsymbol hshape =>
    cases h' with
    | plain hnone => cases hmentions.symm.trans (Outline.mentioned?_eq_none.2 hnone)
    | @load r' a' name' source' hmentions' hsymbol' hshape' =>
      cases hmentions.symm.trans hmentions'
      obtain rfl := hsymbols hsymbol hsymbol'
      obtain rfl : r = r' := by
        have htokens := hshape.symm.trans hshape'
        simp only [List.cons.injEq, true_and] at htokens
        exact Register.name_inj htokens.1
      exact .inr ⟨name, a, r, [], hmentions, hsymbol, rfl, rfl⟩
    | far => cases hlength
    | near => cases hlength
  | @far i r a name token hmentions hsymbol hi htransfer hshape hloading =>
    cases h' with
    | plain => cases hlength
    | load => cases hlength
    | @far i' r' a' name' token' hmentions' hsymbol' hi' htransfer' hshape' hloading' =>
      cases hmentions.symm.trans hmentions'
      obtain rfl := hsymbols hsymbol hsymbol'
      obtain ⟨rfl, rfl⟩ : i = i' ∧ token = token' := by
        have htokens := hshape.symm.trans hshape'
        simp only [List.cons.injEq, and_true] at htokens
        exact ⟨Instruction.eq_of_mnemonic hi hi' htokens.1, htokens.2⟩
      obtain rfl : r = r' := by
        have hparts := hloading.symm.trans hloading'
        simp only [List.cons.injEq, true_and, and_true, String.toList_inj] at hparts
        exact Register.name_inj hparts
      exact .inr ⟨name, a, r, [_], hmentions, hsymbol, rfl, rfl⟩
    | near => cases hlength
  | @near i short r a name token least greatest hmentions hsymbol hi hform hshape =>
    cases h' with
    | plain hnone => cases hmentions.symm.trans (Outline.mentioned?_eq_none.2 hnone)
    | load => cases hlength
    | far => cases hlength
    | @near i' short' r' a' name' token' _ _ hmentions' hsymbol' hi' hform' hshape' =>
      cases hmentions.symm.trans hmentions'
      obtain rfl := hsymbols hsymbol hsymbol'
      obtain rfl : i = i' := by
        have htokens := hshape.symm.trans hshape'
        exact Instruction.eq_of_mnemonic hi hi' (List.cons.inj htokens).1
      cases hform.symm.trans hform'
      -- the displacement stays
      have hsame : ((a + n : Nat) : Int) - (q + n : Nat) - 1 = (a : Int) - q - 1 := by omega
      exact .inl (by rw [hsame])

/-! ## The result for two programs -/

/-- The symbol of a label that stands `n` words further up. -/
def Symbol.shift (n : Nat) (s : Symbol) : Symbol := { s with address := s.address + n }

namespace LaidOut

variable {d : Dialect} {P Q lines : List Line} {rP rQ r : Resolution}
  {blocksP blocksQ blocks : List (List Line)}

theorem map_name_symbols (h : LaidOut d lines r blocks) :
    r.symbols.map Symbol.name = declaredNames d lines := by
  rw [h.symbols, List.map_map, ← map_name_declarations d lines 0]
  rfl

theorem mentioned_subset (h : LaidOut d lines r blocks) :
    Outline.mentioned d lines ⊆ declaredNames d lines := by
  intro name hname
  obtain ⟨l, hl, hmentioned⟩ := List.mem_filterMap.1 hname
  obtain ⟨k, hk⟩ := List.getElem?_of_mem hl
  obtain ⟨block, -, hbecomes⟩ := h.becomes hk
  obtain ⟨a, ha⟩ : ∃ a, ⟨name, a⟩ ∈ r.symbols := by
    cases hbecomes with
    | plain hnone => cases hmentioned.symm.trans (Outline.mentioned?_eq_none.2 hnone)
    | load hmentions hsymbol =>
      cases hmentioned.symm.trans hmentions
      exact ⟨_, hsymbol⟩
    | far hmentions hsymbol =>
      cases hmentioned.symm.trans hmentions
      exact ⟨_, hsymbol⟩
    | near hmentions hsymbol =>
      cases hmentioned.symm.trans hmentions
      exact ⟨_, hsymbol⟩
  rw [← h.map_name_symbols]
  exact List.mem_map_of_mem ha

theorem sizes_append (hP : LaidOut d P rP blocksP) (hQ : LaidOut d Q rQ blocksQ)
    (hdisjoint : List.Disjoint (declaredNames d P) (declaredNames d Q)) :
    Outline.sizes d (P ++ Q) = Outline.sizes d P ++ Outline.sizes d Q := by
  rw [Outline.sizes, Outline.items_append hP.mentioned_subset hQ.mentioned_subset hdisjoint,
    Sizing.finalSizes_append (Outline.closed_items hP.target_lt)]
  rfl

theorem symbols_append (hP : LaidOut d P rP blocksP) (hQ : LaidOut d Q rQ blocksQ)
    (h : LaidOut d (P ++ Q) r blocks)
    (hdisjoint : List.Disjoint (declaredNames d P) (declaredNames d Q)) :
    r.symbols = rP.symbols ++ rQ.symbols.map (Symbol.shift rP.program.size) := by
  have hlength := Outline.length_sizes d P
  rw [h.symbols, hP.symbols, hQ.symbols, declarations_append, declarations_add,
    hP.sizes_append hQ hdisjoint, List.map_append, List.map_map, List.map_map]
  refine congrArg₂ _ (List.map_congr_left fun δ hδ => ?_) (List.map_congr_left fun δ _ => ?_)
  · have hlt := hP.target_lt δ hδ
    rw [Sizing.address_append_left (by omega)]
  · have haddress := Sizing.address_append_right (Outline.sizes d P) (Outline.sizes d Q) δ.target
    rw [hlength, Nat.add_comm, ← hP.size, Nat.add_comm rP.program.size] at haddress
    simp only [Function.comp_apply, Declaration.shift, Symbol.shift, haddress]

/-- A label of one program is not mentioned in the other one, so that it is as unused as before. -/
theorem warnings_append (hP : LaidOut d P rP blocksP) (hQ : LaidOut d Q rQ blocksQ)
    (h : LaidOut d (P ++ Q) r blocks)
    (hdisjoint : List.Disjoint (declaredNames d P) (declaredNames d Q)) :
    r.warnings = rP.warnings ++ rQ.warnings := by
  have hfirst : ∀ δ ∈ declarations d 0 P, δ.name ∉ Outline.mentioned d Q := by
    intro δ hδ hmentioned
    refine hdisjoint ?_ (hQ.mentioned_subset hmentioned)
    rw [← map_name_declarations d P 0]
    exact List.mem_map_of_mem hδ
  have hsecond : ∀ δ ∈ declarations d 0 Q, δ.name ∉ Outline.mentioned d P := by
    intro δ hδ hmentioned
    refine hdisjoint (hP.mentioned_subset hmentioned) ?_
    rw [← map_name_declarations d Q 0]
    exact List.mem_map_of_mem hδ
  rw [h.warnings, hP.warnings, hQ.warnings, declarations_append, declarations_add,
    Outline.mentioned_append, List.filter_append, List.map_append, List.filter_map, List.map_map]
  refine congrArg₂ _
    (congrArg _ (List.filter_congr fun δ hδ => decide_eq_decide.2 ?_))
    (congrArg _ (List.filter_congr fun δ hδ => decide_eq_decide.2 ?_))
  · simp [hfirst δ hδ]
  · simp [Declaration.shift, hsecond δ hδ]

theorem expanded_append (hP : LaidOut d P rP blocksP) (hQ : LaidOut d Q rQ blocksQ)
    (h : LaidOut d (P ++ Q) r blocks) : r.expanded = rP.expanded + rQ.expanded := by
  rw [h.expanded, hP.expanded, hQ.expanded, body_append, List.countP_append]

theorem relaxed_append (hP : LaidOut d P rP blocksP) (hQ : LaidOut d Q rQ blocksQ)
    (h : LaidOut d (P ++ Q) r blocks)
    (hdisjoint : List.Disjoint (declaredNames d P) (declaredNames d Q)) :
    r.relaxed = rP.relaxed + rQ.relaxed := by
  rw [h.relaxed, hP.relaxed, hQ.relaxed, body_append, hP.sizes_append hQ hdisjoint,
    List.zip_append (Outline.length_sizes d P).symm, List.countP_append]

/-- The block of a line of a program, in a result in which the program starts `n` words and its body
`m` lines further up. -/
theorem moves (hP : LaidOut d P rP blocksP) (h : LaidOut d lines r blocks) {m n k : Nat} {l : Line}
    (hl : (body d P)[k]? = some l) (hl' : (body d lines)[m + k]? = some l)
    (hsize : (Outline.sizes d lines)[m + k]? = (Outline.sizes d P)[k]?)
    (haddress : Sizing.address (Outline.sizes d lines) (m + k) =
      Sizing.address (Outline.sizes d P) k + n)
    (hsymbols : ∀ s ∈ rP.symbols, s.shift n ∈ r.symbols) :
    ∃ block block', blocksP[k]? = some block ∧ blocks[m + k]? = some block' ∧
      l.Moves d rP.symbols r.symbols (Sizing.address (Outline.sizes d P) k) n block block' := by
  obtain ⟨block, hblock, hbecomes⟩ := hP.becomes hl
  obtain ⟨block', hblock', hbecomes'⟩ := h.becomes hl'
  rw [haddress] at hbecomes'
  have hlength : block'.length = block.length := by
    rw [← h.lengths, ← hP.lengths, List.getElem?_map, List.getElem?_map, hblock, hblock'] at hsize
    exact Option.some.inj hsize
  have hnodup : (r.symbols.map Symbol.name).Nodup := by
    rw [h.map_name_symbols]
    exact h.nodup
  refine ⟨block, block', hblock, hblock', hbecomes.moves hbecomes' hlength ?_⟩
  intro name a a' ha ha'
  have hfind := find?_of_mem hnodup (hsymbols _ ha)
  have hfind' := find?_of_mem hnodup ha'
  cases hfind.symm.trans hfind'
  rfl

theorem take_blocks (hP : LaidOut d P rP blocksP) (hQ : LaidOut d Q rQ blocksQ)
    (h : LaidOut d (P ++ Q) r blocks)
    (hdisjoint : List.Disjoint (declaredNames d P) (declaredNames d Q)) :
    blocks.take (body d P).length = blocksP := by
  have hsizes := hP.sizes_append hQ hdisjoint
  have hlength := Outline.length_sizes d P
  have hsymbols : ∀ s ∈ rP.symbols, s.shift 0 ∈ r.symbols := by
    rw [hP.symbols_append hQ h hdisjoint]
    exact fun s hs => List.mem_append_left _ hs
  apply List.ext_getElem?
  intro k
  rw [List.getElem?_take]
  split
  · rename_i hk
    have hl := List.getElem?_eq_getElem hk
    have hl' : (body d (P ++ Q))[0 + k]? = some (body d P)[k] := by
      rw [body_append, Nat.zero_add, List.getElem?_append_left hk, hl]
    obtain ⟨block, block', hblock, hblock', hmoves⟩ := hP.moves h (n := 0) hl hl'
      (by rw [hsizes, Nat.zero_add, List.getElem?_append_left (by omega)])
      (by rw [hsizes, Nat.zero_add, Sizing.address_append_left (by omega), Nat.add_zero]) hsymbols
    rw [hblock, ← Nat.zero_add k, hblock', hmoves.eq_of_zero]
  · rename_i hk
    rw [eq_comm, List.getElem?_eq_none_iff, hP.length_eq]
    omega

/-- The blocks of the second program are moved up by the length of the first one. -/
theorem moves_second (hP : LaidOut d P rP blocksP) (hQ : LaidOut d Q rQ blocksQ)
    (h : LaidOut d (P ++ Q) r blocks)
    (hdisjoint : List.Disjoint (declaredNames d P) (declaredNames d Q)) {k : Nat} {l : Line}
    (hl : (body d Q)[k]? = some l) : ∃ block block', blocksQ[k]? = some block ∧
      blocks[(body d P).length + k]? = some block' ∧
        l.Moves d rQ.symbols r.symbols (start blocksQ k) rP.program.size block block' := by
  have hsizes := hP.sizes_append hQ hdisjoint
  have hlength := Outline.length_sizes d P
  have hl' : (body d (P ++ Q))[(body d P).length + k]? = some l := by
    rw [body_append, List.getElem?_append_right (Nat.le_add_right _ _), Nat.add_sub_cancel_left, hl]
  rw [← address_map_length, hQ.lengths]
  refine hQ.moves h hl hl' ?_ ?_ fun s hs => ?_
  · rw [hsizes, ← hlength, List.getElem?_append_right (Nat.le_add_right _ _),
      Nat.add_sub_cancel_left]
  · rw [hsizes, ← hlength, Sizing.address_append_right, hP.size, Nat.add_comm]
  · rw [hP.symbols_append hQ h hdisjoint]
    exact List.mem_append_right _ (List.mem_map_of_mem hs)

/-- The blocks of two programs are those of the first one and, moved up, those of the second one. -/
theorem blocks_append (hP : LaidOut d P rP blocksP) (hQ : LaidOut d Q rQ blocksQ)
    (h : LaidOut d (P ++ Q) r blocks)
    (hdisjoint : List.Disjoint (declaredNames d P) (declaredNames d Q)) :
    ∃ moved, blocks = blocksP ++ moved ∧ moved.length = (body d Q).length ∧
      ∀ (k : Nat) (l : Line), (body d Q)[k]? = some l → ∃ block block',
        blocksQ[k]? = some block ∧ moved[k]? = some block' ∧
          l.Moves d rQ.symbols r.symbols (start blocksQ k) rP.program.size block block' := by
  refine ⟨blocks.drop (body d P).length, ?_, ?_, fun k l hl => ?_⟩
  · rw [← hP.take_blocks hQ h hdisjoint, List.take_append_drop]
  · rw [List.length_drop, h.length_eq, body_append, List.length_append, Nat.add_sub_cancel_left]
  · rw [List.getElem?_drop]
    exact hP.moves_second hQ h hdisjoint hl

end LaidOut

/-- Two programs without a common label are laid out together as each is by itself. The lines of the
first one stay. The second one is moved up by the length of the first one: each line of its body has
in either place the block that it becomes there, and the two blocks differ in no more than the bytes
of an address that they load. -/
theorem Program.resolve_append {d : Dialect} {P Q : List Line} {rP rQ : Resolution}
    (hP : (ofLines P).resolve d = .ok rP) (hQ : (ofLines Q).resolve d = .ok rQ)
    (hdisjoint : List.Disjoint (declaredNames d P) (declaredNames d Q)) :
    ∃ r, (ofLines (P ++ Q)).resolve d = .ok r ∧
      (∃ blocks moved : List (List Line),
        rQ.program.lines = blocks.flatten ∧
        r.program.lines = rP.program.lines ++ moved.flatten ∧
        blocks.length = (body d Q).length ∧ moved.length = (body d Q).length ∧
        ∀ (k : Nat) (l : Line), (body d Q)[k]? = some l → ∃ block block',
          blocks[k]? = some block ∧ moved[k]? = some block' ∧
            l.Moves d rQ.symbols r.symbols (start blocks k) rP.program.size block block') ∧
      r.symbols = rP.symbols ++ rQ.symbols.map (Symbol.shift rP.program.size) ∧
      r.warnings = rP.warnings ++ rQ.warnings ∧
      r.expanded = rP.expanded + rQ.expanded ∧ r.relaxed = rP.relaxed + rQ.relaxed := by
  obtain ⟨r, hr⟩ := exists_resolve_append hP hQ hdisjoint
  obtain ⟨blocksP, outP⟩ := laidOut (valid_ofLines P) hP
  obtain ⟨blocksQ, outQ⟩ := laidOut (valid_ofLines Q) hQ
  obtain ⟨blocks, out⟩ := laidOut (valid_ofLines (P ++ Q)) hr
  rw [lines_ofLines] at outP outQ out
  obtain ⟨moved, hblocks, hlength, hmoves⟩ := outP.blocks_append outQ out hdisjoint
  refine ⟨r, hr, ⟨blocksQ, moved, outQ.program, ?_, outQ.length_eq, hlength, hmoves⟩,
    outP.symbols_append outQ out hdisjoint, outP.warnings_append outQ out hdisjoint,
    outP.expanded_append outQ out, outP.relaxed_append outQ out hdisjoint⟩
  rw [out.program, outP.program, hblocks, List.flatten_append]

/-- A loop with a jump back, followed by a program that moves one address twice and jumps back. Both
addresses go up by the length of the loop, and the displacement stays. -/
theorem Program.resolve_append_loop : ∃ rP rQ r,
    (ofLines [⟨[".top"], 1⟩, ⟨["JEQ", ".top$r2"], 2⟩]).resolve {} = .ok rP ∧
    (ofLines [⟨[".get"], 3⟩, ⟨["MOV", "r1", ".get"], 4⟩, ⟨["MOV", "r2", ".get"], 5⟩,
      ⟨["JUC", ".get$r1"], 6⟩]).resolve {} = .ok rQ ∧
    (ofLines [⟨[".top"], 1⟩, ⟨["JEQ", ".top$r2"], 2⟩, ⟨[".get"], 3⟩, ⟨["MOV", "r1", ".get"], 4⟩,
      ⟨["MOV", "r2", ".get"], 5⟩, ⟨["JUC", ".get$r1"], 6⟩]).resolve {} = .ok r ∧
    rP.program.lines = [⟨["BEQ", "-1"], 2⟩] ∧
    rQ.program.lines = [⟨["MOVIL", "r1", "0x0"], 4⟩, ⟨["MOVIU", "r1", "0x0"], 4⟩,
      ⟨["MOVIL", "r2", "0x0"], 5⟩, ⟨["MOVIU", "r2", "0x0"], 5⟩, ⟨["BUC", "-5"], 6⟩] ∧
    r.program.lines = [⟨["BEQ", "-1"], 2⟩,
      ⟨["MOVIL", "r1", "0x1"], 4⟩, ⟨["MOVIU", "r1", "0x0"], 4⟩,
      ⟨["MOVIL", "r2", "0x1"], 5⟩, ⟨["MOVIU", "r2", "0x0"], 5⟩, ⟨["BUC", "-5"], 6⟩] ∧
    r.symbols = rP.symbols ++ rQ.symbols.map (Symbol.shift rP.program.size) ∧
    r.warnings = rP.warnings ++ rQ.warnings ∧
    r.expanded = rP.expanded + rQ.expanded ∧ r.relaxed = rP.relaxed + rQ.relaxed := by
  obtain ⟨rP, hP, hlinesP⟩ := map_eq_ok (f := (·.program.lines)).1
    (show _ <$> (ofLines [⟨[".top"], 1⟩, ⟨["JEQ", ".top$r2"], 2⟩]).resolve {} =
      .ok [⟨["BEQ", "-1"], 2⟩] by decide +kernel)
  obtain ⟨rQ, hQ, hlinesQ⟩ := map_eq_ok (f := (·.program.lines)).1
    (show _ <$> (ofLines [⟨[".get"], 3⟩, ⟨["MOV", "r1", ".get"], 4⟩, ⟨["MOV", "r2", ".get"], 5⟩,
        ⟨["JUC", ".get$r1"], 6⟩]).resolve {} =
      .ok [⟨["MOVIL", "r1", "0x0"], 4⟩, ⟨["MOVIU", "r1", "0x0"], 4⟩,
        ⟨["MOVIL", "r2", "0x0"], 5⟩, ⟨["MOVIU", "r2", "0x0"], 5⟩, ⟨["BUC", "-5"], 6⟩]
      by decide +kernel)
  obtain ⟨r, hr, -, hrest⟩ := resolve_append hP hQ (List.disjoint_left.2 (by decide +kernel))
  obtain ⟨r', hr', hlines⟩ := map_eq_ok (f := (·.program.lines)).1
    (show _ <$> (ofLines [⟨[".top"], 1⟩, ⟨["JEQ", ".top$r2"], 2⟩, ⟨[".get"], 3⟩,
        ⟨["MOV", "r1", ".get"], 4⟩, ⟨["MOV", "r2", ".get"], 5⟩, ⟨["JUC", ".get$r1"], 6⟩]).resolve {} =
      .ok [⟨["BEQ", "-1"], 2⟩, ⟨["MOVIL", "r1", "0x1"], 4⟩, ⟨["MOVIU", "r1", "0x0"], 4⟩,
        ⟨["MOVIL", "r2", "0x1"], 5⟩, ⟨["MOVIU", "r2", "0x0"], 5⟩, ⟨["BUC", "-5"], 6⟩]
      by decide +kernel)
  cases hr'.symm.trans hr
  exact ⟨rP, rQ, r, hP, hQ, hr, hlinesP, hlinesQ, hlines, hrest⟩

end CompactRisc
