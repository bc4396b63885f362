/-!
# Paths

A path is read as its segments, the pieces between the slashes. The results of a run go, unless told
otherwise, to the directory of the source file, under names made from the name of the source file.
-/
namespace CompactRisc.Path

/-- The pieces of a path between its slashes. -/
def segments (path : String) : List String :=
  (path.toList.splitOn '/').map String.ofList

def ofSegments (segments : List String) : String := "/".intercalate segments

/-- The last segment, which is the name of the file that the path leads to. -/
def fileName (path : String) : String := (segments path).getLastD ""

def directory (path : String) : List String := (segments path).dropLast

/-- Segments that lead nowhere. -/
def isTrivial (segment : String) : Bool := segment = "" || segment = "."

/-- A segment that cannot be the name of a file. -/
def leadsToDirectory (segment : String) : Bool := isTrivial segment || segment = ".."

/-- A name has at most 255 bytes. -/
def isLongName (name : String) : Bool := 255 < name.utf8ByteSize

/-- A path has at most 4095 bytes, however few names it holds. -/
def isLong (path : String) : Bool := 4095 < path.utf8ByteSize

/-- The segments without those at the end that lead nowhere. The first one stays, as it tells an
absolute path from a relative one. -/
def trimSegments : List String → List String
  | [] => []
  | first :: rest => first :: (rest.reverse.dropWhile isTrivial).reverse

/-- The name that a path ends in. The slashes and single dots after it do not count, and a path that
ends in a step up has none. -/
def name? (path : String) : Option String :=
  (trimSegments (segments path)).getLast?.filter (!leadsToDirectory ·)

def parent (path : String) : List String := (trimSegments (segments path)).dropLast

/-- A file name cut at its last dot, unless that is its first character: the part before the dot,
and the part after it. -/
def splitExtension (name : String) : String × Option String :=
  let reversed := name.toList.reverse
  match reversed.dropWhile (· ≠ '.') with
  | '.' :: c :: stem =>
    (String.ofList (c :: stem).reverse, some (String.ofList (reversed.takeWhile (· ≠ '.')).reverse))
  | _ => (name, none)

def stem (name : String) : String := (splitExtension name).1

/-- The extension of the name that a path ends in. -/
def extension? (path : String) : Option String := (name? path).bind fun name => (splitExtension name).2

/-- The last segment is `..` and an extension, such as `..asm`. -/
def isStepWithExtension (segment : String) : Bool :=
  match splitExtension segment with
  | (".", some _) => true
  | _ => false

/-- The path of a name in the directory that a path leads to. -/
def join (path name : String) : String :=
  if fileName path = "" then path ++ name else path ++ "/" ++ name

/-- Where the machine code of a source file goes by default: the same path with the extension `dat`
in place of its own, or added if it has none. A path that ends in a name such as `..asm` is the
exception: it is `..` up to its extension, which is the way to a directory and takes no extension. -/
def machineCode (input : String) : String :=
  match name? input with
  | none => input
  | some name =>
    if isStepWithExtension (fileName input) then ofSegments (parent input ++ [".."])
    else ofSegments (parent input ++ [stem name ++ ".dat"])

/-- Where the dump of a source file goes by default: beside it, under a name of its own. -/
def processed (input : String) : String :=
  match name? input with
  | none => join input "_processed.asm"
  | some name => ofSegments (trimSegments (parent input) ++ [stem name ++ "_processed.asm"])

end CompactRisc.Path
