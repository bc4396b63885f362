import CompactRisc.Proofs.Faults
import CompactRisc.Proofs.Tokens

/-!
# Where a source is refused

A refused source gets one fault. It is about the first line that breaks a rule of the earliest phase
whose rules are broken at all, and that line is a line of the source with something on it.

Results:
* `Phase.isSome_check`: what the rules of a phase are, apart from how they are checked.
* `Phase.check_located`: a fault is on the line at which it is found, and tells its phase.
* `Source.pairwise_scope`: in every phase the lines stand in the order of the source.
* `assembleLines_blames`: where the fault of a source is.
-/
namespace CompactRisc

/-- The line `l`, between the lines `A` and the lines `B`, breaks a rule of the phase. -/
def Phase.Broken (d : Dialect) (names : List String) (A : List Line) (l : Line) (B : List Line) :
    Phase → Prop
  /- a define without a token and a replacement, or of a token that has been defined -/
  | defines => d.isDefine l.first = true ∧ (l.tokens.length ≠ 3 ∨
      ∃ l' ∈ A, d.isDefine l'.first = true ∧ l'.tokens.getD 1 "" = l.tokens.getD 1 "")
  /- a label that is not alone, has no name, or has been declared -/
  | declarations => Label.declares d l = true ∧ (l.tokens.length ≠ 1 ∨ l.first = d.labelMark ∨
      ∃ l' ∈ A, Label.declares d l' = true ∧ l'.first = l.first)
  /- the first one of the declarations that stand at the end -/
  | trailing => (∀ l' ∈ l :: B, Label.declares d l' = true) ∧
      ∀ l' ∈ A.getLast?, Label.declares d l' = false
  /- a line of the body with a reference that it cannot have -/
  | references => Label.declares d l = false ∧ l.labelTokens d ≠ [] ∧ ¬l.Refers d names
  /- a line of the body without a reference that has no word -/
  | encoding => Label.declares d l = false ∧ l.labelTokens d = [] ∧ ∀ w, l.encode ≠ .ok w

/-- The line with the number `n` breaks a rule of the phase. -/
def Source.Violates (d : Dialect) (lines : List Line) (phase : Phase) (n : Nat) : Prop :=
  ∃ A l B, phase.scope d lines = A ++ l :: B ∧ l.source = n ∧
    phase.Broken d (declaredNames d (Defines.rest d lines)) A l B

/-- The causes that a phase can give for a fault. -/
def Phase.gives : Phase → Fault.Cause → Bool
  | defines, .defineArity .. | defines, .defineTwice _ => true
  | declarations, .labelArity .. | declarations, .labelNameless .. | declarations, .labelTwice _ =>
    true
  | trailing, .labelDangling _ => true
  | references, .severalReferences | references, .referenceParts _ | references, .labelUndefined _
  | references, .unknownWithLabel _ | references, .loadingMissing ..
  | references, .labelNotAllowed _ | references, .operands _ => true
  | encoding, .operands _ | encoding, .unknownLine _ | encoding, .severalNumbers
  | encoding, .numberTooWide _ => true
  | _, _ => false

/-! ## What a phase finds -/

theorem isSome_refusal? {ε α : Type} {x : Except ε α} :
    (refusal? x).isSome = true ↔ ∀ a, x ≠ .ok a := by
  cases x <;> simp

theorem Line.isSome_refusal?_use {d : Dialect} {labels : Array Label} {l : Line}
    (hfirst : d.isLabel l.first = false) : (refusal? (l.use d labels)).isSome = true ↔
      l.labelTokens d ≠ [] ∧ ¬l.Refers d (labels.toList.map Label.name) := by
  rw [isSome_refusal?, ← not_or, ← exists_use hfirst, not_exists]

namespace Phase

variable {d : Dialect} {names : List String} {A B : List Line} {l : Line}

/-- A phase finds a fault at a line exactly if the line breaks one of its rules. -/
theorem isSome_check (phase : Phase) :
    (phase.check d names A l B).isSome = true ↔ phase.Broken d names A l B := by
  cases phase with
  | defines =>
    have hnames : l.tokens.getD 1 "" ∈ (Defines.table d A).map Prod.fst ↔
        ∃ l' ∈ A, d.isDefine l'.first = true ∧ l'.tokens.getD 1 "" = l.tokens.getD 1 "" := by
      simp [Defines.table, and_assoc]
    rw [Broken, ← hnames, check, Defines.check]
    split
    · rename_i hdefine
      simp only [hdefine, true_and]
      split
      · rename_i hlen
        simp [hlen]
      · rename_i hlen
        split <;> simp_all
    · rename_i hother
      simp [hother]
  | declarations =>
    have hnames : l.first ∈ declaredNames d A ↔
        ∃ l' ∈ A, Label.declares d l' = true ∧ l'.first = l.first := by
      simp [declaredNames, and_assoc]
    rw [Broken, ← hnames, check, Label.check]
    split
    · rename_i hdeclares
      simp only [hdeclares, true_and]
      split
      · rename_i hlen
        simp [hlen]
      · rename_i hlen
        split
        · rename_i hmark
          simp [hmark]
        · rename_i hmark
          split <;> simp_all
    · rename_i hbody
      simp [hbody]
  | trailing =>
    have hlast : A.getLast?.any (Label.declares d) = false ↔
        ∀ l' ∈ A.getLast?, Label.declares d l' = false := by
      cases A.getLast? <;> simp
    rw [Broken, ← hlast, check, Label.checkTrailing]
    split <;> simp_all
  | references =>
    rw [Broken, check, Check.ofLine, Line.referenceFault?]
    cases hbody : Label.declares d l with
    | true => simp
    | false =>
      have hnames : (names.map fun name => (⟨name, 0, 0⟩ : Label)).toArray.toList.map Label.name =
          names := by simp [Function.comp_def]
      rw [if_neg (by simp), Line.isSome_refusal?_use hbody, hnames]
      simp
  | encoding =>
    rw [Broken, check, Check.ofLine, Line.encodingFault?]
    cases hbody : Label.declares d l with
    | true => simp
    | false =>
      cases hnone : l.labelTokens d with
      | nil => simp [isSome_refusal?]
      | cons token tokens => simp

end Phase

/-! ## Faults and their lines -/

/-- Whatever error the computation ends in has this property. -/
def FailsWith {ε α : Type} (P : ε → Prop) (x : Except ε α) : Prop := ∀ e, x = .error e → P e

section FailsWith

variable {ε α β : Type} {P : ε → Prop}

theorem failsWith_ok (a : α) : FailsWith P (.ok a : Except ε α) := fun _ h => by cases h

theorem failsWith_error {e : ε} (h : P e) : FailsWith P (.error e : Except ε α) := by
  intro e' he
  cases he
  exact h

theorem failsWith_bind {x : Except ε α} {f : α → Except ε β} (hx : FailsWith P x)
    (hf : ∀ a, FailsWith P (f a)) : FailsWith P (x >>= f) := by
  cases x with
  | error e => exact failsWith_error (hx e rfl)
  | ok a => exact hf a

theorem failsWith_foldlM {step : β → α → Except ε β} (hstep : ∀ b a, FailsWith P (step b a))
    (as : List α) (b : β) : FailsWith P (as.foldlM step b) := by
  induction as generalizing b with
  | nil => exact failsWith_ok b
  | cons a as ih =>
    rw [List.foldlM_cons]
    exact failsWith_bind (hstep b a) ih

end FailsWith

/-- The fault is on the line and has a cause that the phase can give. -/
def Phase.Located (phase : Phase) (l : Line) (e : Fault) : Prop :=
  e.line = l.source ∧ phase.gives e.cause = true

theorem atLine_located {α : Type} {phase : Phase} (hphase : ∀ e, phase.gives (.operands e) = true)
    (l : Line) (x : Except OperandError α) :
    FailsWith (phase.Located l) (Fault.atLine l.source x) := by
  cases x with
  | error e => exact failsWith_error ⟨rfl, hphase e⟩
  | ok a => exact failsWith_ok a

namespace Mention

variable (d : Dialect) (labels : Array Label) (l : Line)

theorem findLabel_located (token : String) (name : List Char) :
    FailsWith (Phase.references.Located l) (findLabel labels l token name) := by
  unfold findLabel
  split
  · exact failsWith_ok _
  · exact failsWith_error ⟨rfl, rfl⟩

theorem read_located (token : String) (index : Nat) :
    FailsWith (Phase.references.Located l) (read d labels l token index) := by
  unfold read
  split
  · exact failsWith_bind (findLabel_located labels l token _) fun _ => failsWith_ok _
  · refine failsWith_bind (findLabel_located labels l token _) fun _ => ?_
    exact failsWith_bind (atLine_located (fun _ => rfl) l _) fun _ => failsWith_ok _
  · exact failsWith_error ⟨rfl, rfl⟩

theorem find_located : FailsWith (Phase.references.Located l) (find d labels l) := by
  refine failsWith_foldlM (fun found x => ?_) _ _
  obtain ⟨token, index⟩ := x
  simp only [step]
  split
  · exact failsWith_ok _
  split
  · exact failsWith_error ⟨rfl, rfl⟩
  · exact failsWith_bind (read_located d labels l token index) fun _ => failsWith_ok _

theorem load_located (m : Mention) : FailsWith (Phase.references.Located l) (m.load d l) := by
  have hinstruction : FailsWith (Phase.references.Located l) (m.instruction l) := by
    unfold instruction
    split
    · exact failsWith_error ⟨rfl, rfl⟩
    · exact failsWith_bind (atLine_located (fun _ => rfl) l _) fun _ => failsWith_ok _
  refine failsWith_bind hinstruction fun i => ?_
  split
  · split
    · exact failsWith_ok _
    · exact failsWith_error ⟨rfl, rfl⟩
  · split
    · exact failsWith_bind (atLine_located (fun _ => rfl) l _) fun _ => failsWith_ok _
    · exact failsWith_error ⟨rfl, rfl⟩

end Mention

theorem Line.use_located (d : Dialect) (labels : Array Label) (l : Line) :
    FailsWith (Phase.references.Located l) (l.use d labels) := by
  refine failsWith_bind (Mention.find_located d labels l) fun found => ?_
  split
  · exact failsWith_ok _
  · exact failsWith_bind (Mention.load_located d l _) fun _ => failsWith_ok _

theorem Line.encode_located (l : Line) : FailsWith (Phase.encoding.Located l) l.encode := by
  unfold encode encodeNumber
  split
  · exact atLine_located (fun _ => rfl) l _
  split
  · exact failsWith_error ⟨rfl, rfl⟩
  split
  · exact failsWith_error ⟨rfl, rfl⟩
  split
  · exact failsWith_ok _
  · exact failsWith_error ⟨rfl, rfl⟩

theorem Phase.check_located {d : Dialect} {names : List String} {A B : List Line} {l : Line}
    {phase : Phase} {e : Fault} (h : phase.check d names A l B = some e) : phase.Located l e := by
  cases phase with
  | defines =>
    rw [check, Defines.check] at h
    split at h
    · split at h
      · cases h
        exact ⟨rfl, rfl⟩
      · split at h
        · cases h
          exact ⟨rfl, rfl⟩
        · cases h
    · cases h
  | declarations =>
    rw [check, Label.check] at h
    split at h
    · split at h
      · cases h
        exact ⟨rfl, rfl⟩
      split at h
      · cases h
        exact ⟨rfl, rfl⟩
      split at h
      · cases h
        exact ⟨rfl, rfl⟩
      · cases h
    · cases h
  | trailing =>
    rw [check, Label.checkTrailing] at h
    split at h
    · cases h
      exact ⟨rfl, rfl⟩
    · cases h
  | references =>
    rw [check, Check.ofLine, Line.referenceFault?] at h
    split at h
    · cases h
    · exact Line.use_located _ _ l e (refusal?_eq_some.1 h)
  | encoding =>
    rw [check, Check.ofLine, Line.encodingFault?] at h
    split at h
    · cases h
    · exact Line.encode_located l e (refusal?_eq_some.1 h)

/-! ## The order of the lines -/

namespace Source

theorem pairwise_lines (d : Dialect) (raw : List String) :
    (lines d raw).Pairwise fun l l' => l.source < l'.source := by
  have hnumbers : ((raw.zipIdx 1).map Prod.snd).Pairwise (· < ·) := by
    rw [List.zipIdx_map_snd]
    exact List.pairwise_lt_range'
  rw [lines, List.pairwise_filterMap]
  refine (List.pairwise_map.1 hnumbers).imp fun {x y} hlt l hl l' hl' => ?_
  rw [(line?_eq_some hl).1, (line?_eq_some hl').1]
  exact hlt

theorem pairwise_scope (d : Dialect) (raw : List String) (phase : Phase) :
    (phase.scope d (lines d raw)).Pairwise fun l l' => l.source < l'.source := by
  have hrest : (Defines.rest d (lines d raw)).Pairwise fun l l' => l.source < l'.source := by
    rw [Defines.rest, List.pairwise_map]
    exact (pairwise_lines d raw).filter _
  cases phase with
  | defines => exact pairwise_lines d raw
  | declarations | trailing | references | encoding => exact hrest

theorem exists_raw_of_mem_lines {d : Dialect} {raw : List String} {l : Line}
    (h : l ∈ lines d raw) : 1 ≤ l.source ∧ l.source ≤ raw.length ∧
      ∃ text, raw[l.source - 1]? = some text ∧ tokens d text ≠ [] := by
  obtain ⟨⟨text, n⟩, hx, hl⟩ := List.mem_filterMap.1 h
  obtain ⟨rfl, htokens⟩ := line?_eq_some hl
  rw [List.mk_mem_zipIdx_iff_le_and_getElem?_sub] at hx
  have hbound := (List.getElem?_eq_some_iff.1 hx.2).1
  exact ⟨hx.1, by dsimp only; omega, text, hx.2, htokens⟩

/-- The lines that a phase checks are lines of the source, as far as their numbers go. -/
theorem exists_line_of_mem_scope {d : Dialect} {lines : List Line} {phase : Phase} {l : Line}
    (h : l ∈ phase.scope d lines) : ∃ l' ∈ lines, l'.source = l.source := by
  have hrest : l ∈ Defines.rest d lines → ∃ l' ∈ lines, l'.source = l.source := by
    intro hl
    obtain ⟨l', hl', rfl⟩ := List.mem_map.1 hl
    exact ⟨l', List.mem_of_mem_filter hl', rfl⟩
  cases phase with
  | defines => exact ⟨l, h, rfl⟩
  | declarations | trailing | references | encoding => exact hrest h

end Source

/-! ## The fault of a refused source -/

namespace Phase

variable {d : Dialect} {lines : List Line} {phase : Phase}

theorem fault?_eq_none : phase.fault? d lines = none ↔ ∀ n, ¬Source.Violates d lines phase n := by
  rw [fault?, Check.first_eq_none]
  refine ⟨fun h n hviolates => ?_, fun h A l B hscope => ?_⟩
  · obtain ⟨A, l, B, hscope, -, hbroken⟩ := hviolates
    have hnone := h A l B hscope
    rw [← isSome_check, ← List.nil_append A, hnone] at hbroken
    cases hbroken
  · rw [← Option.not_isSome_iff_eq_none, isSome_check]
    exact fun hbroken => h l.source ⟨A, l, B, hscope, rfl, hbroken⟩

/-- Of lines in order, the one with fewer lines before it has the lower number. -/
theorem source_le_of_length_le {A A' B B' : List Line} {l l' : Line}
    (hsorted : lines.Pairwise fun l l' => l.source < l'.source) (h : lines = A ++ l :: B)
    (h' : lines = A' ++ l' :: B') (hle : A.length ≤ A'.length) : l.source ≤ l'.source := by
  have hl : lines[A.length]? = some l := by simp [h]
  have hl' : lines[A'.length]? = some l' := by simp [h']
  rcases Nat.lt_or_eq_of_le hle with hlt | heq
  · obtain ⟨hk, rfl⟩ := List.getElem?_eq_some_iff.1 hl
    obtain ⟨hk', rfl⟩ := List.getElem?_eq_some_iff.1 hl'
    exact (List.pairwise_iff_getElem.1 hsorted _ _ hk hk' hlt).le
  · rw [heq, hl'] at hl
    cases hl
    exact Nat.le_refl _

/-- The fault that a phase finds is on the first line that breaks one of its rules. -/
theorem fault?_located (hsorted : (phase.scope d lines).Pairwise fun l l' => l.source < l'.source)
    {e : Fault} (h : phase.fault? d lines = some e) :
    phase.gives e.cause = true ∧ Source.Violates d lines phase e.line ∧
      ∀ n, Source.Violates d lines phase n → e.line ≤ n := by
  obtain ⟨A, l, B, hscope, hcheck, hearlier⟩ := Check.first_eq_some.1 h
  rw [List.nil_append] at hcheck
  obtain ⟨hline, hgives⟩ := check_located hcheck
  refine ⟨hgives, ⟨A, l, B, hscope, hline.symm, (isSome_check phase).1 (by rw [hcheck]; rfl)⟩, ?_⟩
  rintro n ⟨A', l', B', hscope', rfl, hbroken⟩
  rw [hline]
  refine source_le_of_length_le hsorted hscope hscope' (Nat.le_of_not_lt fun hlen => ?_)
  have hnone := hearlier A' l' B' hscope' hlen
  rw [← isSome_check, ← List.nil_append A', hnone] at hbroken
  cases hbroken

end Phase

/-- Where the fault of a refused source is. Its line is a raw line with tokens on it. It comes from
the earliest phase whose rules are broken at all, and is on the first line that breaks them. -/
theorem assembleLines_blames {d : Dialect} {raw : List String} {e : Fault}
    (h : assembleLines d raw = .error e) :
    (1 ≤ e.line ∧ e.line ≤ raw.length ∧
      ∃ text, raw[e.line - 1]? = some text ∧ Source.tokens d text ≠ []) ∧
    ∃ earlier phase later, Phase.all = earlier ++ phase :: later ∧
      (∀ phase' ∈ earlier, ∀ n, ¬Source.Violates d (Source.lines d raw) phase' n) ∧
      phase.gives e.cause = true ∧ Source.Violates d (Source.lines d raw) phase e.line ∧
      ∀ n, Source.Violates d (Source.lines d raw) phase n → e.line ≤ n := by
  have hfault : Source.fault? d (Source.lines d raw) = some e := by
    rw [← refusal?_assembleLines, h, refusal?_error]
  obtain ⟨earlier, phase, later, hall, hphase, hearlier⟩ := List.findSome?_eq_some_iff.1 hfault
  obtain ⟨hgives, hviolates, hfirst⟩ :=
    Phase.fault?_located (Source.pairwise_scope d raw phase) hphase
  refine ⟨?_, earlier, phase, later, hall,
    fun phase' hmem => Phase.fault?_eq_none.1 (hearlier phase' hmem), hgives, hviolates, hfirst⟩
  obtain ⟨A, l, B, hscope, hline, -⟩ := hviolates
  have hmem : l ∈ phase.scope d (Source.lines d raw) := by simp [hscope]
  obtain ⟨l', hl', hsource⟩ := Source.exists_line_of_mem_scope hmem
  rw [← hline, ← hsource]
  exact Source.exists_raw_of_mem_lines hl'

/-- A reference to no label is found before a line that has no word, although it comes after it. -/
theorem assembleLines_blames_reference :
    ∃ e, assembleLines {} ["FOO", "# a comment", ".a", "JUC .b$r1"] = .error e ∧
      e.line = 4 ∧
      (1 ≤ e.line ∧ e.line ≤ 4 ∧
        ∃ text, ["FOO", "# a comment", ".a", "JUC .b$r1"][e.line - 1]? = some text ∧
          Source.tokens {} text ≠ []) ∧
      ∃ earlier phase later, Phase.all = earlier ++ phase :: later ∧
        (∀ phase' ∈ earlier, ∀ n, ¬Source.Violates {}
          (Source.lines {} ["FOO", "# a comment", ".a", "JUC .b$r1"]) phase' n) ∧
        phase.gives e.cause = true ∧
        Source.Violates {}
          (Source.lines {} ["FOO", "# a comment", ".a", "JUC .b$r1"]) phase e.line ∧
        ∀ n, Source.Violates {}
          (Source.lines {} ["FOO", "# a comment", ".a", "JUC .b$r1"]) phase n → e.line ≤ n := by
  have hrefused : refusal? (assembleLines {} ["FOO", "# a comment", ".a", "JUC .b$r1"]) =
      some ⟨.labelUndefined ".b$r1", 4⟩ := by decide +kernel
  have herror := refusal?_eq_some.1 hrefused
  exact ⟨_, herror, rfl, assembleLines_blames herror⟩

end CompactRisc
