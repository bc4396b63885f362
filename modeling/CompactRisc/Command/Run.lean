import CompactRisc.Assembly
import CompactRisc.Command.Files
import CompactRisc.Command.Options
import CompactRisc.Output.Dump
import CompactRisc.Output.Listing
import CompactRisc.Output.SymbolTable

/-!
# Runs

A run reads the source, assembles it, shows the warnings, writes the files that are asked for and
prints the listing. Everything that is to be written is made before the first file is written. If
there is no room for it, the run is broken off.
-/
namespace CompactRisc

/-- Why a run stops, and what lies behind it. -/
structure Failure where
  message : String
  cause : Option String
  deriving DecidableEq, Repr

namespace Failure

def ofFault (f : Fault) : Failure := ⟨f.text, f.cause.operandError?.map (·.message)⟩

def reading (path : String) (e : FileError) : Failure := ⟨"reading " ++ path, some e.message⟩

def writing (path : String) (e : FileError) : Failure := ⟨"writing " ++ path, some e.message⟩

/-- The failure as it is shown; the cause is for those who debug. -/
def text (f : Failure) (debug : Bool) : String :=
  let cause :=
    match debug, f.cause with
    | true, some cause => "\n\nCaused by:\n    " ++ cause
    | _, _ => ""
  "error: " ++ f.message ++ cause ++ "\n"

end Failure

/-- Everything that a successful assembly shows and writes. -/
structure Report where
  warnings : String
  /-- Paths and texts of the files, in the order in which they are written, unless there is no room for
  one of them. -/
  files : Option (List (String × String))
  listing : String
  deriving DecidableEq, Repr

namespace Report

def filesOf (o : Options) (a : Assembly) : Option (List (String × String)) := do
  let text ← machineCode o.radix o.padding a.words
  let machine := (o.output.getD (Path.machineCode o.input), text)
  let dump :=
    match o.processedFile, o.processed with
    | some path, _ => [(path, a.program.dump)]
    | none, true => [(Path.processed o.input, a.program.dump)]
    | none, false => []
  let symbols := o.symbols.toList.map fun path => (path, SymbolTable.render a.symbols)
  return machine :: (dump ++ symbols)

def ofAssembly (o : Options) (a : Assembly) : Report where
  warnings := Text.unlines (a.warnings.map Warning.text)
  files := filesOf o a
  listing := if o.listing then Listing.render a.words else ""

def ofSource (o : Options) (source : String) : Except Fault Report :=
  ofAssembly o <$> assemble {} source

end Report

/-- The exit code of a run that is broken off. What the system says about it is not part of the
outcome. -/
def abortCode : Nat := 101

structure Outcome where
  exit : Nat
  stdout : String
  stderr : String
  files : Files

/-- Assembles a file among files. -/
def Options.run (o : Options) (files : Files) : Outcome :=
  match files.readText o.input with
  | .error e => ⟨1, "", (Failure.reading o.input e).text o.debug, files⟩
  | .ok source =>
    match Report.ofSource o source with
    | .error fault => ⟨1, "", (Failure.ofFault fault).text o.debug, files⟩
    | .ok report =>
      match report.files with
      | none => ⟨abortCode, "", report.warnings, files⟩
      | some texts =>
        match files.writeAll texts with
        | (files', none) => ⟨0, report.listing, report.warnings, files'⟩
        | (files', some (path, e)) =>
          ⟨1, "", report.warnings ++ (Failure.writing path e).text o.debug, files'⟩

def versionText : String := "cr16-asm-cli 0.1.0\n"

def usageText : String := "Usage: cr16asm [OPTIONS] <INPUT>\n"

def helpText : String :=
  "Assembler for the CR16 16-bit ISA\n\n" ++ usageText ++ "\n" ++ Text.unlines [
    "Arguments:",
    "  <INPUT>  Assembly source file",
    "",
    "Options:",
    "  -o, --output <FILE>",
    "          Machine code output (default: INPUT with a .dat extension)",
    "  -P, --processed-output",
    "          Also write the fully expanded source next to INPUT",
    "      --processed-file <FILE>",
    "          Where to write the expanded source (implies --processed-output)",
    "  -b, --number-base <NUMBER_BASE>",
    "          Base used for each output word [default: hex] [possible values: binary, decimal, hex]",
    "  -p, --max-padding-line <MAX_PADDING_LINE>",
    "          Pad the output with fill lines up to this many lines [default: 0]",
    "  -v, --max-padding-line-value <MAX_PADDING_LINE_VALUE>",
    "          Fill value for padding lines [default: 0]",
    "  -s, --symbols <FILE>",
    "          Export final label addresses as JSON",
    "  -l, --listing",
    "          Print an address / word / disassembly listing",
    "  -d, --debug",
    "          Full error chains and debug logging",
    "  -h, --help",
    "          Print help",
    "  -V, --version",
    "          Print version"]

def Request.run (r : Request) (files : Files) : Outcome :=
  match r with
  | .assemble o => o.run files
  | .version => ⟨0, versionText, "", files⟩
  | .help => ⟨0, helpText, "", files⟩

end CompactRisc
