import CompactRisc.Operand

/-!
# Faults and warnings

A fault is the reason why a source is refused, together with the line of the source that it is
about. Its cause holds what the wording needs; `Fault.Cause.message` is the wording. A warning does
not stop the assembly.
-/
namespace CompactRisc

/-- The words that tie a message to a line, if there is one. -/
def onLine : Option Nat → String
  | some n => " on line " ++ Text.decimal n
  | none => ""

namespace Fault

/-- What part of the assembler's rules is broken. -/
inductive Kind where
  /-- The rules of defines and label declarations. -/
  | preprocess
  /-- The rules of label references. -/
  | reference
  /-- The operands of an instruction, or a data word. -/
  | grammar
  /-- A label that no line follows. -/
  | layout
  deriving DecidableEq, Repr

def Kind.name : Kind → String
  | preprocess => "preprocess"
  | reference => "reference"
  | grammar => "grammar"
  | layout => "layout"

/-- The causes of a fault. A `line` is the text of the line at fault. -/
inductive Cause where
  /-- A define without exactly two arguments. -/
  | defineArity (keyword line : String)
  | defineTwice (line : String)
  /-- A label declaration with something beside the label. -/
  | labelArity (mark line : String)
  /-- A label declaration that is the bare mark. -/
  | labelNameless (mark line : String)
  | labelTwice (name : String)
  /-- A label that no line follows. -/
  | labelDangling (name : String)
  | severalReferences
  /-- A reference with more than one loading register. -/
  | referenceParts (token : String)
  | labelUndefined (token : String)
  /-- A reference on a line that starts with no mnemonic. -/
  | unknownWithLabel (line : String)
  /-- A jump or call to a label without a loading register. -/
  | loadingMissing (label : String) (separator : Char)
  /-- A reference with an instruction that takes none. -/
  | labelNotAllowed (line : String)
  /-- A transfer to a label that is no longer part of the program. -/
  | transferRemoved (label : String)
  | operands (error : OperandError)
  /-- A line that starts with neither a mnemonic nor a number. -/
  | unknownLine (line : String)
  /-- A number with something after it. -/
  | severalNumbers
  | numberTooWide (line : String)
  deriving DecidableEq, Repr

namespace Cause

def kind : Cause → Kind
  | defineArity .. | defineTwice _ | labelArity .. | labelNameless .. | labelTwice _ => .preprocess
  | labelDangling _ | transferRemoved _ => .layout
  | severalReferences | referenceParts _ | labelUndefined _ | unknownWithLabel _
  | loadingMissing .. | labelNotAllowed _ => .reference
  | operands _ | unknownLine _ | severalNumbers | numberTooWide _ => .grammar

def message : Cause → String
  | defineArity keyword line => keyword ++ " can only contain 2 arguments. Got: " ++ line
  | defineTwice line => line ++ " already exists."
  | labelArity mark line => mark ++ "label must contain one word per line. Got: " ++ line
  | labelNameless mark line => mark ++ "label must contain a name. Got: " ++ line
  | labelTwice name => name ++ " already exists."
  | labelDangling name =>
    "Cannot get address for label: " ++ name ++
      ". An instruction or number must come after a label."
  | severalReferences => "Only one label reference per line is allowed."
  | referenceParts token =>
    "A label reference can only contain a label or a label and a loading register. Got: " ++ token
  | labelUndefined token => "Undefined label reference: " ++ token
  | unknownWithLabel line => "Unknown instruction with label: " ++ line
  | loadingMissing label separator =>
    "A label reference for a J[condition] or CALL instruction must contain a loading register " ++
      "(the intermediary register used to load a label address in the event that the equivalent " ++
      "displacement immediate instruction cannot be used due to the label address offset being " ++
      "greater than the range of the immediate). e.g. " ++ label ++ String.singleton separator ++
      "r1"
  | labelNotAllowed line =>
    "Label not allowed with instruction: " ++ line ++
      ". Labels are only allowed for MOV, J[condition], and CALL instructions. Note that " ++
      "J[condition] and CALL instructions will become a B[condition] or CALLD instruction " ++
      "respectively if their label address is within the range of the displacement immediate."
  | transferRemoved label => "Line referencing " ++ label ++ " was removed."
  | operands error => error.message
  | unknownLine line => "Unknown instruction or assembly number: " ++ line
  | severalNumbers => "Only one assembly number per line is allowed."
  | numberTooWide line => "Assembly number does not fit in 16 bits: " ++ line

def operandError? : Cause → Option OperandError
  | operands error => some error
  | _ => none

end Cause

/-- The full text of a fault of a given kind. -/
def format (kind : Kind) (line : Option Nat) (message : String) : String :=
  kind.name ++ " error" ++ onLine line ++ ": " ++ message

end Fault

/-- A reason to refuse a source, and the line of the source that it is about. -/
structure Fault where
  cause : Fault.Cause
  line : Nat
  deriving DecidableEq, Repr

namespace Fault

def kind (f : Fault) : Kind := f.cause.kind

def message (f : Fault) : String := f.cause.message

def text (f : Fault) : String := format f.kind (some f.line) f.message

/-- Places a refusal of operands on a line of the source. -/
def atLine {α : Type} (line : Nat) (result : Except OperandError α) : Except Fault α :=
  result.mapError fun e => ⟨.operands e, line⟩

end Fault

/-- A remark on a source that assembles. -/
structure Warning where
  message : String
  line : Option Nat
  deriving DecidableEq, Repr

namespace Warning

def unusedLabel (name : String) (line : Nat) : Warning := ⟨"Unused label: " ++ name, some line⟩

def text (w : Warning) : String := "Warning" ++ onLine w.line ++ ": " ++ w.message

end Warning

end CompactRisc
