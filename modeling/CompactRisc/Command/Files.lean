import CompactRisc.Command.Path

/-!
# Files

The files that a run can reach, by the names that lead to them. A directory is there if it holds a
file, at any depth, or if it is the working directory or lies above it. Reading and writing fail for
the reasons that they fail for on a disk, and a write that fails changes nothing.
-/
namespace CompactRisc

/-- The reasons why a file cannot be read or written. -/
inductive FileError where
  /-- A name on the way leads nowhere. -/
  | notFound
  /-- A name on the way is the name of a file. -/
  | notDirectory
  /-- The path leads to a directory. -/
  | isDirectory
  /-- The path, or a name on the way, has too many bytes. -/
  | nameTooLong
  /-- The contents are not UTF-8. -/
  | notText
  /-- Any other reason, in the words of the system. -/
  | other (message : String)
  deriving DecidableEq, Repr

def FileError.message : FileError → String
  | notFound => "No such file or directory (os error 2)"
  | notDirectory => "Not a directory (os error 20)"
  | isDirectory => "Is a directory (os error 21)"
  | nameTooLong => "File name too long (os error 36)"
  | notText => "stream did not contain valid UTF-8"
  | other message => message

/-- The shortest way from the working directory: steps up, each of them `..`, and then names. -/
abbrev Location := List String

namespace Location

/-- The location is the working directory or lies above it. -/
def isAncestor (location : Location) : Bool := location.all (· = "..")

/-- The location of the directory that holds this one. -/
def parent (location : Location) : Location :=
  if location.isAncestor then location ++ [".."] else location.dropLast

end Location

structure Files where
  entries : List (Location × ByteArray) := []

namespace Files

def get? (f : Files) (location : Location) : Option ByteArray := f.entries.lookup location

def isFile (f : Files) (location : Location) : Bool := (f.get? location).isSome

def isDirectory (f : Files) (location : Location) : Bool :=
  location.isAncestor ||
    f.entries.any fun (l, _) => location.isPrefixOf l && location.length < l.length

/-- The files with new contents at one location. -/
def put (f : Files) (location : Location) (contents : ByteArray) : Files :=
  if f.isFile location then
    { entries := f.entries.map fun (l, c) => if l = location then (l, contents) else (l, c) }
  else { entries := f.entries ++ [(location, contents)] }

/-- The directory that a segment leads to from another one. -/
def enter (f : Files) (location : Location) (segment : String) : Except FileError Location :=
  if Path.isTrivial segment then .ok location
  else if segment = ".." then .ok location.parent
  else if Path.isLongName segment then .error .nameTooLong
  else
    let next := location ++ [segment]
    if f.isDirectory next then .ok next
    else if f.isFile next then .error .notDirectory
    else .error .notFound

/-- The directory that the given segments of a path lead to. The length of the path counts before
any of them is looked at. -/
def walk (f : Files) (path : String) (segments : List String) : Except FileError Location :=
  if Path.isLong path then .error .nameTooLong else segments.foldlM f.enter []

def read (f : Files) (path : String) : Except FileError ByteArray := do
  let name := Path.fileName path
  let location ← f.walk path (Path.directory path)
  if Path.leadsToDirectory name then .error .isDirectory
  else if Path.isLongName name then .error .nameTooLong
  else
    match f.get? (location ++ [name]) with
    | some contents => return contents
    | none =>
      if f.isDirectory (location ++ [name]) then .error .isDirectory else .error .notFound

def readText (f : Files) (path : String) : Except FileError String := do
  let contents ← f.read path
  match String.fromUTF8? contents with
  | some text => return text
  | none => .error .notText

/-- The segments of a path without the slashes at its end, and whether there were any. -/
def splitSlashes (path : String) : List String × Bool :=
  let reversed := (Path.segments path).reverse
  ((reversed.dropWhile (· = "")).reverse, reversed.head? = some "")

/-- The files after a write to the file that a path leads to. A path that ends in a slash is taken
for the path of a directory, whether or not there is one. -/
def write (f : Files) (path : String) (contents : ByteArray) : Except FileError Files := do
  let (segments, slash) := splitSlashes path
  let name := segments.getLastD ""
  let location ← f.walk path segments.dropLast
  if slash || Path.leadsToDirectory name then .error .isDirectory
  else if Path.isLongName name then .error .nameTooLong
  else if f.isDirectory (location ++ [name]) then .error .isDirectory
  else return f.put (location ++ [name]) contents

/-- Writes texts one after another, up to the first write that fails. Also gives the path of that
one and the reason. -/
def writeAll (f : Files) : List (String × String) → Files × Option (String × FileError)
  | [] => (f, none)
  | (path, text) :: rest =>
    match f.write path text.toUTF8 with
    | .ok f' => f'.writeAll rest
    | .error e => (f, some (path, e))

end Files

end CompactRisc
