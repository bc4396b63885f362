import CompactRisc.Proofs.Declarations
import CompactRisc.Proofs.Layout.Phases

/-!
# The outline of a list of lines

What the layout of a list of lines depends on, read off the tokens alone: for each line of the body
whether it refers to a label, to which line of the body, and how far its short form reaches.

Results:
* `Outline.item_of_expands`: a line that is taken has in the outline the item of the block that it
  becomes.
-/
namespace CompactRisc

/-- What stands after the first separator of a text does not depend on what stands before it. -/
theorem exists_parts (sep : Char) (cs : List Char) : ∃ parts : List (List Char), ∀ name : List Char,
    sep ∉ name → (name ++ cs.dropWhile (· != sep)).splitOn sep = name :: parts := by
  have hnot : ∀ {name : List Char}, sep ∉ name → ∀ c ∈ name, (c == sep) = false := by
    intro name hname c hc
    exact beq_false_of_ne fun he => hname (he ▸ hc)
  cases hdrop : cs.dropWhile (· != sep) with
  | nil =>
    refine ⟨[], fun name hname => ?_⟩
    rw [List.append_nil]
    exact List.splitOnP_eq_singleton (hnot hname)
  | cons c rest =>
    have hc : (c == sep) = true := by
      have hhead := List.head?_dropWhile_not (· != sep) cs
      rw [hdrop] at hhead
      simpa using hhead
    refine ⟨rest.splitOn sep, fun name hname => ?_⟩
    exact List.splitOnP_append_cons_of_forall_mem (hnot hname) c hc rest

theorem headD_splitOn (sep : Char) (cs : List Char) :
    (cs.splitOn sep).headD [] = cs.takeWhile (· != sep) := by
  obtain ⟨parts, hparts⟩ := exists_parts sep cs
  have hbefore : sep ∉ cs.takeWhile (· != sep) := fun h => by
    simpa using List.all_eq_true.1 List.all_takeWhile sep h
  have hsplit := hparts _ hbefore
  rw [List.takeWhile_append_dropWhile] at hsplit
  rw [hsplit]
  rfl

/-- The name of the label that a line mentions: what stands before the separator in its first token
that is a label. -/
def Line.mentioned? (d : Dialect) (l : Line) : Option String :=
  (l.labelTokens d).head?.map fun token =>
    String.ofList ((token.toList.splitOn d.loadSeparator).headD [])

namespace Outline

/-- The number of the body line that a name stands for. -/
def target (declared : List Declaration) (name : String) : Nat :=
  ((declared.find? (·.name == name)).map Declaration.target).getD 0

/-- What a line of the body is to the layout. -/
def item (d : Dialect) (declared : List Declaration) (l : Line) : Sizing.Item :=
  match l.mentioned? d with
  | none => .plain
  | some name =>
    match (Instruction.ofMnemonic? l.first).map Instruction.shape with
    | some (.jump _) => .transfer (target declared name) (-128) 127
    | some .call => .transfer (target declared name) (-2048) 2047
    | _ => .load (target declared name)

def items (d : Dialect) (lines : List Line) : List Sizing.Item :=
  (body d lines).map (item d (declarations d 0 lines))

/-- The names of the labels that the lines of the body mention. -/
def mentioned (d : Dialect) (lines : List Line) : List String :=
  (body d lines).filterMap (Line.mentioned? d)

/-- The sizes of the body lines in the end. -/
def sizes (d : Dialect) (lines : List Line) : List Nat := Sizing.finalSizes (items d lines)

theorem length_sizes (d : Dialect) (lines : List Line) :
    (sizes d lines).length = (body d lines).length := by
  rw [sizes, Sizing.finalSizes, Sizing.length_sizesAfter, items, List.length_map]

theorem mentioned?_eq_none {d : Dialect} {l : Line} :
    l.mentioned? d = none ↔ l.labelTokens d = [] := by
  simp [Line.mentioned?]

theorem item_of_labelTokens {d : Dialect} {declared : List Declaration} {l : Line}
    (h : l.labelTokens d = []) : item d declared l = .plain := by
  rw [item, mentioned?_eq_none.2 h]

theorem mentioned?_of_names {d : Dialect} {labels : Array Label} {l : Line} {token : String}
    {label : Label} {loading : Option Register} (hone : l.labelTokens d = [token])
    (hn : Mention.Names d labels token label loading) : l.mentioned? d = some label.name := by
  simp [Line.mentioned?, hone, hn.1]

/-- The handle of a label that is found by its name is that of the line that the name stands for. -/
theorem idxOf_target {ids : List LineId} {declared : List Declaration} {labels : Array Label}
    (hnd : ids.Nodup) (hlabels : labels.toList = declared.map (Declaration.label ids))
    (htarget : ∀ δ ∈ declared, δ.target < ids.length) {label : Label}
    (h : labels.find? (·.name == label.name) = some label) :
    ids.idxOf label.target = target declared label.name := by
  rw [← Array.find?_toList, hlabels, List.find?_map] at h
  obtain ⟨δ, hδ, hlabel⟩ := Option.map_eq_some_iff.1 h
  have hlt := htarget δ (List.mem_of_find?_eq_some hδ)
  have hget : label.target = ids[δ.target] := by
    rw [← hlabel]
    simp [Declaration.label, hlt]
  have hfind : declared.find? (·.name == label.name) = some δ := hδ
  rw [hget, hnd.idxOf_getElem, target, hfind]
  rfl

/-- A line that is taken has in the outline the item of the block that it becomes. -/
theorem item_of_expands {d : Dialect} {ids : List LineId} {declared : List Declaration}
    {labels : Array Label} (hnd : ids.Nodup)
    (hlabels : labels.toList = declared.map (Declaration.label ids))
    (htarget : ∀ δ ∈ declared, δ.target < ids.length) {e : LineId × Line} {b : Layout.Block}
    (h : Layout.Expands d labels e b) : b.item ids = item d declared e.2 := by
  cases h with
  | @plain id l hl =>
    rw [item_of_labelTokens hl]
    rfl
  | @site id l u hu high transfer =>
    cases hu with
    | @move label r token y loading hone hn hshape _ =>
      have hidx := idxOf_target hnd hlabels htarget hn.2
      have hmov : Instruction.ofMnemonic? l.first = some Instruction.mov := by
        rw [Line.first, hshape]
        exact Instruction.ofMnemonic?_mnemonic _ Instruction.moves_mem_catalog.1
      simp [item, mentioned?_of_names hone hn, hmov, Instruction.mov, Layout.Block.item, hidx]
    | @transfer label r i short token hone hn hi hform hshape =>
      have hidx := idxOf_target hnd hlabels htarget hn.2
      have hmn : Instruction.ofMnemonic? l.first = some i := by
        rw [Line.first, hshape]
        exact Instruction.ofMnemonic?_mnemonic i hi
      rcases (Instruction.shortForm?_eq_some hform).2 with ⟨c, hi', hs'⟩ | ⟨hi', hs'⟩
      · simp [item, mentioned?_of_names hone hn, hmn, hi', hs', Layout.Block.item, hidx,
          Shape.displacementRange?]
      · simp [item, mentioned?_of_names hone hn, hmn, hi', hs', Layout.Block.item, hidx,
          Shape.displacementRange?]

end Outline

end CompactRisc
