import CompactRisc.Literal
import CompactRisc.Output.MachineCode

/-!
# Options

The arguments of the command line are read from left to right, and the first one that is wrong
decides. A setting takes a value, either joined to it or as the next argument; a flag takes none.
Short flags may be joined. After `--` every argument is the path of the source.

* `Request.ofArguments?` gives what is asked for, or nothing if an argument is wrong.
-/
namespace CompactRisc

structure Options where
  input : String
  output : Option String := none
  processed : Bool := false
  /-- Path of the dump; the dump is wanted if there is one. -/
  processedFile : Option String := none
  radix : Radix := .hexadecimal
  padding : Padding := {}
  symbols : Option String := none
  listing : Bool := false
  debug : Bool := false
  deriving DecidableEq, Repr

inductive Request where
  | assemble (options : Options)
  | version
  | help
  deriving DecidableEq, Repr

/-- The arguments that take a value. -/
inductive Setting where
  | output
  | processedFile
  | radix
  | lineCount
  | fill
  | symbols
  deriving DecidableEq, Repr

/-- The arguments that take no value. -/
inductive Flag where
  | processed
  | listing
  | debug
  | version
  | help
  deriving DecidableEq, Repr

inductive Argument where
  | setting (s : Setting)
  | flag (f : Flag)
  deriving DecidableEq, Repr

namespace Argument

/-- The argument of a name after two dashes. -/
def ofLong? : String → Option Argument
  | "output" => some (.setting .output)
  | "processed-output" => some (.flag .processed)
  | "processed-file" => some (.setting .processedFile)
  | "number-base" => some (.setting .radix)
  | "max-padding-line" => some (.setting .lineCount)
  | "max-padding-line-value" => some (.setting .fill)
  | "symbols" => some (.setting .symbols)
  | "listing" => some (.flag .listing)
  | "debug" => some (.flag .debug)
  | "version" => some (.flag .version)
  | "help" => some (.flag .help)
  | _ => none

/-- The argument of a letter after one dash. -/
def ofShort? : Char → Option Argument
  | 'o' => some (.setting .output)
  | 'P' => some (.flag .processed)
  | 'b' => some (.setting .radix)
  | 'p' => some (.setting .lineCount)
  | 'v' => some (.setting .fill)
  | 's' => some (.setting .symbols)
  | 'l' => some (.flag .listing)
  | 'd' => some (.flag .debug)
  | 'V' => some (.flag .version)
  | 'h' => some (.flag .help)
  | _ => none

end Argument

def Radix.ofName? : String → Option Radix
  | "binary" => some .binary
  | "decimal" => some .decimal
  | "hex" => some .hexadecimal
  | _ => none

/-- The arguments read so far. -/
structure Draft where
  input : Option String := none
  output : Option String := none
  processedFile : Option String := none
  radix : Option Radix := none
  lineCount : Option UInt64 := none
  fill : Option Word := none
  symbols : Option String := none
  processed : Bool := false
  listing : Bool := false
  debug : Bool := false
  deriving DecidableEq, Repr

namespace Draft

/-- A path is not empty. -/
def path? (value : String) : Option String := if value.isEmpty then none else some value

/-- A count is a decimal numeral that fits 64 bits, with an optional plus sign. -/
def count? (value : String) : Option UInt64 :=
  let digits :=
    match value.toList with
    | '+' :: digits => digits
    | digits => digits
  ((Literal.digits? 10 digits).filter (· < UInt64.size)).map UInt64.ofNat

/-- A fill word is a decimal numeral from 0 to 65535, with an optional sign. -/
def fill? (value : String) : Option Word :=
  let magnitude : Option Int :=
    match value.toList with
    | '-' :: digits => (Literal.digits? 10 digits).map fun n => -(n : Int)
    | '+' :: digits => (Literal.digits? 10 digits).map fun n => (n : Int)
    | digits => (Literal.digits? 10 digits).map fun n => (n : Int)
  (magnitude.filter fun v => 0 ≤ v ∧ v ≤ 65535).map (BitVec.ofInt 16)

/-- Fills a place that must still be free. -/
def fillOnce {α : Type} (place : Option α) (value : Option α) : Option (Option α) :=
  if place.isSome then none else value.map some

def setInput (d : Draft) (value : String) : Option Draft :=
  (fillOnce d.input (path? value)).map fun input => { d with input }

/-- Takes in a setting, which may be given once. -/
def set (d : Draft) (s : Setting) (value : String) : Option Draft :=
  match s with
  | .output => (fillOnce d.output (path? value)).map fun output => { d with output }
  | .processedFile =>
    (fillOnce d.processedFile (path? value)).map fun processedFile => { d with processedFile }
  | .radix => (fillOnce d.radix (Radix.ofName? value)).map fun radix => { d with radix }
  | .lineCount => (fillOnce d.lineCount (count? value)).map fun lineCount => { d with lineCount }
  | .fill => (fillOnce d.fill (fill? value)).map fun fill => { d with fill }
  | .symbols => (fillOnce d.symbols (path? value)).map fun symbols => { d with symbols }

/-- What to do after an argument. -/
inductive Next where
  | read (d : Draft)
  /-- The next argument is the value of a setting. -/
  | await (s : Setting) (d : Draft)
  /-- The rest does not matter. -/
  | stop (r : Request)
  deriving DecidableEq, Repr

/-- Takes in a flag, which may be given once. -/
def raise (d : Draft) (f : Flag) : Option Next :=
  match f with
  | .processed => if d.processed then none else some (.read { d with processed := true })
  | .listing => if d.listing then none else some (.read { d with listing := true })
  | .debug => if d.debug then none else some (.read { d with debug := true })
  | .version => some (.stop .version)
  | .help => some (.stop .help)

/-- Reads the name, and the value if there is one, after two dashes. -/
def readLong (d : Draft) (text : List Char) : Option Next :=
  let name := String.ofList (text.takeWhile (· ≠ '='))
  match Argument.ofLong? name, text.dropWhile (· ≠ '=') with
  | some (.setting s), _ :: value => (d.set s (String.ofList value)).map .read
  | some (.setting s), [] => some (.await s d)
  | some (.flag f), [] => d.raise f
  | _, _ => none

/-- Reads the letters after one dash. A setting takes the rest of them for its value, without an
equals sign at its start. -/
def readShort (d : Draft) : List Char → Option Next
  | [] => some (.read d)
  | c :: rest =>
    match Argument.ofShort? c with
    | some (.setting s) =>
      match rest with
      | [] => some (.await s d)
      | '=' :: value => (d.set s (String.ofList value)).map .read
      | value => (d.set s (String.ofList value)).map .read
    | some (.flag f) =>
      match d.raise f with
      | some (.read d') => d'.readShort rest
      | next => next
    | none => none

/-- Reads one argument. A dash alone is a path. -/
def readArgument (d : Draft) (argument : String) : Option Next :=
  match argument.toList with
  | '-' :: '-' :: text => d.readLong text
  | '-' :: c :: text => d.readShort (c :: text)
  | _ => (d.setInput argument).map .read

/-- An argument that can be the value of the setting before it. -/
def isValue (argument : String) : Bool :=
  argument = "-" || argument.toList.head? ≠ some '-'

/-- The request once all arguments are read. There must be a source. -/
def finish (d : Draft) : Option Request :=
  d.input.map fun input => .assemble {
    input
    output := d.output
    processed := d.processed
    processedFile := d.processedFile
    radix := d.radix.getD .hexadecimal
    padding := ⟨d.lineCount.getD 0, d.fill.getD 0⟩
    symbols := d.symbols
    listing := d.listing
    debug := d.debug }

def readAll (d : Draft) : List String → Option Request
  | [] => d.finish
  | argument :: rest =>
    if argument = "--" then (rest.foldlM setInput d).bind finish
    else
      match d.readArgument argument with
      | none => none
      | some (.stop r) => some r
      | some (.read d') => d'.readAll rest
      | some (.await s d') =>
        match rest with
        | [] => none
        | value :: rest' =>
          if isValue value then (d'.set s value).bind fun d'' => d''.readAll rest' else none

end Draft

/-- What a list of arguments asks for, or nothing if one of them is wrong. -/
def Request.ofArguments? (arguments : List String) : Option Request :=
  Draft.readAll {} arguments

end CompactRisc
