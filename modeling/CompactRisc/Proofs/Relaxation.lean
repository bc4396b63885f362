import CompactRisc.Proofs.Rewriting

/-!
# Relaxation as a computation on sizes

Which references end in short form, and with it every address of a resolved program, is decided by
the sweep over sizes in `Sizing`, which knows nothing of handles and lines.

Results:
* `Resolved.collapsed_iff`: a reference is in short form in the end exactly if the sweep gives it
  size 1.
* `Program.resolve_refines_sizing`: the addresses, the length and the counts of a resolved program
  are those of the sweep.
-/
namespace CompactRisc

open Layout

/-- The line is a jump or call that has become its short form. -/
def Line.Collapsed (l final : Line) : Prop :=
  ∃ (i short : Instruction) (v : Int), i ∈ Instruction.catalog ∧ l.first = i.mnemonic ∧
    i.shortForm? = some short ∧ final = ⟨[short.mnemonic, Text.decimal v], l.source⟩

theorem Line.Becomes.collapsed_iff {d : Dialect} {symbols : List Symbol} {q : Nat} {l first : Line}
    {block : List Line} (h : l.Becomes d symbols q block) (hl : (l.mentioned? d).isSome = true)
    (hfirst : block.head? = some first) : block.length = 1 ↔ l.Collapsed first := by
  cases h with
  | plain hnone =>
    rw [Outline.mentioned?_eq_none.2 hnone] at hl
    cases hl
  | near hmentions hsymbol hi hform hshape =>
    cases hfirst
    exact ⟨fun _ => ⟨_, _, _, hi, by rw [Line.first, hshape]; rfl, hform, rfl⟩, fun _ => rfl⟩
  | load | far =>
    cases hfirst
    refine ⟨fun h => (by cases h), fun h => ?_⟩
    obtain ⟨i, short, v, -, -, -, h⟩ := h
    -- the load has three tokens, the short form two
    cases congrArg (·.tokens.length) h

namespace Resolved

variable {d : Dialect} {p : Program} {r : Resolution} {labels : Array Label} {bs : List Block}

theorem collapsed_iff (hp : p.Valid) (h : Resolved d p r labels bs) {k : Nat} {e : LineId × Line}
    (hk : (Label.strip d p).entries[k]? = some e) (hl : (e.2.mentioned? d).isSome = true) :
    (Outline.sizes d p.lines)[k]? = some 1 ↔ e.2.Collapsed (r.program.line e.1) := by
  obtain ⟨block, hblock, hbecomes⟩ := h.becomes hp hk
  rw [← hbecomes.collapsed_iff hl (h.head?_linesOf hk hblock), ← h.map_length_linesOf,
    List.getElem?_map, hblock, Option.map_some, Option.some.injEq]

end Resolved

/-- The references that collapse, the addresses, the length and the counts of a resolved program are
those of the sweep over sizes. -/
theorem Program.resolve_refines_sizing {d : Dialect} {p : Program} {r : Resolution} (hp : p.Valid)
    (h : p.resolve d = .ok r) :
    (∀ (k : Nat) (id : LineId) (l : Line), (Label.strip d p).entries[k]? = some (id, l) →
      r.program.position id = some (Sizing.address (Outline.sizes d p.lines) k) ∧
      ((l.mentioned? d).isSome = true →
        ((Outline.sizes d p.lines)[k]? = some 1 ↔ l.Collapsed (r.program.line id)))) ∧
    r.symbols = ((declarations d 0 p.lines).map fun δ =>
      ⟨δ.name, Sizing.address (Outline.sizes d p.lines) δ.target⟩) ∧
    r.program.size = (Outline.sizes d p.lines).sum ∧
    r.expanded = ((body d p.lines).countP fun l => (l.mentioned? d).isSome) ∧
    r.relaxed = ((body d p.lines).zip (Outline.sizes d p.lines)).countP
      fun x => (x.1.mentioned? d).isSome && x.2 == 1 := by
  obtain ⟨labels, bs, -, hr⟩ := resolved hp h
  exact ⟨fun k id l hk => ⟨hr.position hk, hr.collapsed_iff hp hk⟩, hr.symbols_eq hp, hr.size_eq,
    hr.expanded_eq, hr.relaxed_eq⟩

/-- A jump forward over a call that collapses after it, so that it is tried with the call still
long. -/
theorem Program.resolve_refines_sizing_forward : ∃ r, (ofLines [⟨["JUC", ".end$r2"], 1⟩,
      ⟨["CALL", ".end$r3"], 2⟩, ⟨[".end"], 3⟩, ⟨["MOV", "r1", ".end"], 4⟩]).resolve {} = .ok r ∧
    r.symbols = [⟨".end", 2⟩] ∧ r.program.size = 4 ∧ r.expanded = 3 ∧ r.relaxed = 2 := by
  obtain ⟨r, h⟩ := exists_ok_of_isOk (x := (ofLines [⟨["JUC", ".end$r2"], 1⟩,
      ⟨["CALL", ".end$r3"], 2⟩, ⟨[".end"], 3⟩, ⟨["MOV", "r1", ".end"], 4⟩]).resolve {})
    (by decide +kernel)
  obtain ⟨-, hsymbols, hsize, hexpanded, hrelaxed⟩ := resolve_refines_sizing (valid_ofLines _) h
  rw [lines_ofLines] at hsymbols hsize hexpanded hrelaxed
  refine ⟨r, h, hsymbols.trans ?_, hsize.trans ?_, hexpanded.trans ?_, hrelaxed.trans ?_⟩ <;>
    decide +kernel

end CompactRisc
