import CompactRisc.Encoding
import CompactRisc.Proofs.Mentions

/-!
# Numbers of lines

The number of a source line goes wherever the line goes, and nothing is ever decided by it. If the
lines get other numbers, everything that is read from a line stays, and a fault is on the line with
the new number. The same is true of what a label holds beside its name.

Results:
* `Line.exists_renumber`: lines with the same tokens are the same lines with other numbers.
* `Line.use_renumber`: the use of a label on a line that has got another number.
* `Line.encode_renumber`: the word of such a line.
-/
namespace CompactRisc

def Line.renumber (f : Nat → Nat) (l : Line) : Line := { l with source := f l.source }

def Fault.renumber (f : Nat → Nat) (e : Fault) : Fault := { e with line := f e.line }

def Warning.renumber (f : Nat → Nat) (w : Warning) : Warning := { w with line := w.line.map f }

@[simp] theorem Line.tokens_renumber (f : Nat → Nat) (l : Line) :
    (l.renumber f).tokens = l.tokens := rfl

@[simp] theorem Line.source_renumber (f : Nat → Nat) (l : Line) :
    (l.renumber f).source = f l.source := rfl

@[simp] theorem Line.first_renumber (f : Nat → Nat) (l : Line) :
    (l.renumber f).first = l.first := rfl

@[simp] theorem Line.renumber_id : renumber id = id := rfl

@[simp] theorem Warning.renumber_id : renumber id = id := by
  funext w
  rw [renumber, Option.map_id]
  rfl

theorem Line.eq_map_renumber {f : Nat → Nat} {lines lines' : List Line}
    (htokens : lines'.map Line.tokens = lines.map Line.tokens)
    (hsources : lines'.map Line.source = lines.map fun l => f l.source) :
    lines' = lines.map (renumber f) := by
  apply List.ext_getElem?
  intro k
  have ht := congrArg (·[k]?) htokens
  have hs := congrArg (·[k]?) hsources
  simp only [List.getElem?_map] at ht hs
  rw [List.getElem?_map]
  cases hl : lines[k]? with
  | none =>
    rw [hl, Option.map_none, Option.map_eq_none_iff] at ht
    rw [ht]
    rfl
  | some l =>
    rw [hl] at ht hs
    obtain ⟨l', hl', htokens⟩ := Option.map_eq_some_iff.1 ht
    rw [hl', Option.map_some, Option.map_some, Option.some.injEq] at hs
    rw [hl', Option.map_some, renumber, ← htokens, ← hs]

/-- If no two lines have the same number, every other numbering of them is a function of it. -/
theorem Line.exists_renumber {lines lines' : List Line}
    (hsorted : lines.Pairwise fun l l' => l.source < l'.source)
    (htokens : lines'.map Line.tokens = lines.map Line.tokens) :
    ∃ f, lines' = lines.map (renumber f) := by
  have hnodup : (lines.map Line.source).Nodup :=
    List.pairwise_map.2 (hsorted.imp fun hlt => Nat.ne_of_lt hlt)
  have hlen : lines'.length = lines.length := by
    rw [← List.length_map Line.tokens, htokens, List.length_map]
  refine ⟨fun n => (lines'.map Line.source).getD ((lines.map Line.source).idxOf n) 0,
    eq_map_renumber htokens (List.ext_getElem (by simpa using hlen) fun k hk hk' => ?_)⟩
  rw [List.length_map] at hk hk'
  have hidx := hnodup.idxOf_getElem k (by rw [List.length_map]; exact hk')
  rw [List.getElem_map] at hidx
  rw [List.getElem_map, List.getElem_map, hidx, List.getD_eq_getElem?_getD, List.getElem?_map,
    List.getElem?_eq_getElem hk]
  rfl

/-! ## Computations that are carried over -/

/-- The outcome of a computation with other numbers for the lines and another form of the result. -/
def carry {α β : Type} (f : Nat → Nat) (g : α → β) : Except Fault α → Except Fault β
  | .error e => .error (e.renumber f)
  | .ok a => .ok (g a)

section Carry

variable {α β γ δ : Type} {f : Nat → Nat} {g : α → β}

theorem carry_bind {h : γ → δ} {k : α → Except Fault γ} {k' : β → Except Fault δ}
    (hk : ∀ a, k' (g a) = carry f h (k a)) (x : Except Fault α) :
    carry f g x >>= k' = carry f h (x >>= k) := by
  cases x with
  | error e => rfl
  | ok a => exact hk a

theorem carry_foldlM {step : α → γ → Except Fault α} {step' : β → γ → Except Fault β}
    (hstep : ∀ a c, step' (g a) c = carry f g (step a c)) (cs : List γ) (a : α) :
    cs.foldlM step' (g a) = carry f g (cs.foldlM step a) := by
  induction cs generalizing a with
  | nil => rfl
  | cons c cs ih =>
    rw [List.foldlM_cons, List.foldlM_cons, hstep]
    exact carry_bind ih _

theorem refusal?_carry (x : Except Fault α) :
    refusal? (carry f g x) = (refusal? x).map (Fault.renumber f) := by
  cases x <;> rfl

theorem atLine_renumber (n : Nat) (x : Except OperandError α) :
    Fault.atLine (f n) x = carry f id (Fault.atLine n x) := by
  cases x <;> rfl

end Carry

/-! ## Lines and labels -/

/-- The mention of the label that `g` makes of the label. -/
def Mention.relabel (g : Label → Label) (m : Mention) : Mention := { m with label := g m.label }

/-- The use of the label that `g` makes of the label. -/
def Use.relabel (g : Label → Label) (u : Use) : Use := { u with label := g u.label }

namespace Mention

variable {g : Label → Label} (f : Nat → Nat) (d : Dialect) (labels : Array Label) (l : Line)

theorem findLabel_renumber (hg : ∀ label, (g label).name = label.name) (token : String)
    (name : List Char) : findLabel (labels.map g) (l.renumber f) token name =
      carry f g (findLabel labels l token name) := by
  have hfind : (labels.map g).find? (·.name == String.ofList name) =
      (labels.find? (·.name == String.ofList name)).map g := by
    rw [Array.find?_map]
    simp only [Function.comp_def, hg]
  unfold findLabel
  rw [hfind]
  cases labels.find? (·.name == String.ofList name) <;> rfl

theorem read_renumber (hg : ∀ label, (g label).name = label.name) (token : String) (index : Nat) :
    read d (labels.map g) (l.renumber f) token index =
      carry f (relabel g) (read d labels l token index) := by
  unfold read
  split
  · rw [findLabel_renumber f labels l hg]
    refine carry_bind (fun label => ?_) _
    rfl
  · rw [findLabel_renumber f labels l hg, Line.source_renumber, atLine_renumber]
    refine carry_bind (fun label => ?_) _
    refine carry_bind (fun r => ?_) _
    rfl
  · rfl

theorem step_renumber (hg : ∀ label, (g label).name = label.name) (found : Option Mention)
    (x : String × Nat) : step d (labels.map g) (l.renumber f) (found.map (relabel g)) x =
      carry f (Option.map (relabel g)) (step d labels l found x) := by
  obtain ⟨token, index⟩ := x
  unfold step
  simp only [Option.isSome_map, read_renumber f d labels l hg]
  split
  · rfl
  split
  · rfl
  · cases read d labels l token index <;> rfl

theorem find_renumber (hg : ∀ label, (g label).name = label.name) :
    find d (labels.map g) (l.renumber f) =
      carry f (Option.map (relabel g)) (find d labels l) :=
  carry_foldlM (step_renumber f d labels l hg) l.tokens.zipIdx none

theorem instruction_renumber (m : Mention) :
    (m.relabel g).instruction (l.renumber f) = carry f id (m.instruction l) := by
  unfold instruction
  rw [Line.first_renumber]
  split
  · rfl
  · rw [Line.source_renumber, atLine_renumber]
    refine carry_bind (fun operands => ?_) _
    rfl

theorem load_renumber (hg : ∀ label, (g label).name = label.name) (m : Mention) :
    (m.relabel g).load d (l.renumber f) = carry f id (m.load d l) := by
  unfold load
  rw [instruction_renumber]
  refine carry_bind (fun i => ?_) _
  simp only [id, relabel, hg]
  split
  · split <;> rfl
  · split
    · rw [Line.source_renumber, atLine_renumber]
      refine carry_bind (fun r => ?_) _
      rfl
    · rfl

end Mention

namespace Line

variable (f : Nat → Nat)

theorem use_renumber {g : Label → Label} (hg : ∀ label, (g label).name = label.name) (d : Dialect)
    (labels : Array Label) (l : Line) : (l.renumber f).use d (labels.map g) =
      carry f (Option.map (Use.relabel g)) (l.use d labels) := by
  unfold use
  rw [Mention.find_renumber f d labels l hg]
  refine carry_bind (fun found => ?_) _
  cases found with
  | none => rfl
  | some m =>
    simp only [Option.map_some]
    rw [Mention.load_renumber f d l hg]
    refine carry_bind (fun load => ?_) _
    rfl

theorem encode_renumber (l : Line) : (l.renumber f).encode = carry f id l.encode := by
  unfold encode
  rw [first_renumber]
  split
  · exact atLine_renumber _ _
  · unfold encodeNumber
    rw [first_renumber]
    split
    · rfl
    · rw [tokens_renumber]
      split
      · rfl
      split <;> rfl

end Line

end CompactRisc
