import CompactRisc.Command.Run

/-!
# Command line

Reads the source from the disk, and writes the results to it.
-/
namespace CompactRisc

/-- The number of an error of the system. Some calls give it as a negative number. -/
def errorNumber (code : UInt32) : UInt32 := if code < 0x80000000 then code else 0 - code

/-- The reason behind an error of the system. -/
def FileError.ofSystem : IO.Error → FileError
  | .noFileOrDirectory .. => .notFound
  | .inappropriateType _ code _ => if errorNumber code = 20 then .notDirectory else .isDirectory
  | e@(.invalidArgument _ code _) =>
    if errorNumber code = 36 then .nameTooLong else .other (toString e)
  | e => .other (toString e)

def loadText (path : String) : IO (Except FileError String) := do
  try
    let contents ← IO.FS.readBinFile path
    match String.fromUTF8? contents with
    | some text => return .ok text
    | none => return .error .notText
  catch e => return .error (.ofSystem e)

/-- Writes texts to the disk, up to the first write that fails. -/
def saveAll : List (String × String) → IO (Option (String × FileError))
  | [] => return none
  | (path, text) :: rest => do
    try
      IO.FS.writeFile path text
    catch e => return some (path, .ofSystem e)
    saveAll rest

/-- Shows a failure and gives the exit code for it. -/
def failWith (o : Options) (f : Failure) : IO UInt32 := do
  IO.eprint (f.text o.debug)
  return 1

def Options.execute (o : Options) : IO UInt32 := do
  match ← loadText o.input with
  | .error e => failWith o (.reading o.input e)
  | .ok source =>
    match Report.ofSource o source with
    | .error fault => failWith o (.ofFault fault)
    | .ok report =>
      IO.eprint report.warnings
      match report.files with
      | none => return UInt32.ofNat abortCode
      | some texts =>
        match ← saveAll texts with
        | some (path, e) => failWith o (.writing path e)
        | none =>
          IO.print report.listing
          return 0

end CompactRisc

def main (arguments : List String) : IO UInt32 := do
  match CompactRisc.Request.ofArguments? arguments with
  | some (.assemble o) => o.execute
  | some .version =>
    IO.print CompactRisc.versionText
    return 0
  | some .help =>
    IO.print CompactRisc.helpText
    return 0
  | none =>
    IO.eprint ("error: invalid arguments\n\n" ++ CompactRisc.usageText)
    return 2
