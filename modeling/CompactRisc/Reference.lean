import CompactRisc.Instruction.Catalog
import CompactRisc.Label

/-!
# References to labels

A line may mention one label, as `.name` or, with a loading register, as `.name$r1`. Only three
kinds of instruction take a mention: `MOV` loads the address of the label into its destination, and
a jump or call goes to the label, by way of the loading register if it is far away.

`Mention.find` reads the mention on a line, and `Mention.load` decides how the line uses it. Both
look at one line at a time and do not depend on addresses.
-/
namespace CompactRisc

/-- The mention of a label on a line. -/
structure Mention where
  /-- The index of the token. -/
  token : Nat
  label : Label
  /-- The register that the address may be loaded into on the way to the label. -/
  loading : Option Register
  deriving DecidableEq, Repr

/-- How a line uses the address of a label: it goes into a register, and for a jump or call control
goes on through that register. -/
structure AddressLoad where
  register : Register
  /-- The jump or call through the register, and its short form. -/
  transfer : Option (Instruction × Instruction)
  deriving DecidableEq, Repr

namespace Mention

/-- The label of the name that a token starts with. -/
def findLabel (labels : Array Label) (l : Line) (token : String) (name : List Char) :
    Except Fault Label :=
  match labels.find? (·.name == String.ofList name) with
  | some label => .ok label
  | none => .error ⟨.labelUndefined token, l.source⟩

def read (d : Dialect) (labels : Array Label) (l : Line) (token : String) (index : Nat) :
    Except Fault Mention :=
  match token.toList.splitOn d.loadSeparator with
  | [name] => do
    let label ← findLabel labels l token name
    return ⟨index, label, none⟩
  | [name, register] => do
    let label ← findLabel labels l token name
    let r ← Fault.atLine l.source (readRegister (String.ofList register))
    return ⟨index, label, some r⟩
  | _ => .error ⟨.referenceParts token, l.source⟩

/-- Takes in the next token of a line on which `found` has been found so far. -/
def step (d : Dialect) (labels : Array Label) (l : Line) (found : Option Mention) :
    String × Nat → Except Fault (Option Mention)
  | (token, index) =>
    if !d.isLabel token then .ok found
    else if found.isSome then .error ⟨.severalReferences, l.source⟩
    else some <$> read d labels l token index

def find (d : Dialect) (labels : Array Label) (l : Line) : Except Fault (Option Mention) :=
  l.tokens.zipIdx.foldlM (step d labels l) none

/-- The instruction of a line with a mention. Its operands are checked with a register in place of
the mention. -/
def instruction (m : Mention) (l : Line) : Except Fault Instruction :=
  match Instruction.ofMnemonic? l.first with
  | none => .error ⟨.unknownWithLabel l.text, l.source⟩
  | some i => do
    let _ ← Fault.atLine l.source (i.readOperands (l.tokens.set m.token Register.r0.name))
    return i

/-- How a line uses the label it mentions. A move ignores the loading register. -/
def load (d : Dialect) (m : Mention) (l : Line) : Except Fault AddressLoad := do
  let i ← m.instruction l
  match i.shortForm? with
  | some short =>
    match m.loading with
    | some r => return ⟨r, some (i, short)⟩
    | none => .error ⟨.loadingMissing m.label.name d.loadSeparator, l.source⟩
  | none =>
    if i.mnemonic = "MOV" then
      let r ← Fault.atLine l.source (readRegister (l.tokens.getD 1 ""))
      return ⟨r, none⟩
    else .error ⟨.labelNotAllowed l.text, l.source⟩

end Mention

end CompactRisc
