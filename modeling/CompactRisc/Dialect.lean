import CompactRisc.Text.Blank

/-!
# Dialects

The lexical conventions of the source: what starts a comment, a define and a label, and what stands
between a label and the register that its address is loaded into.
-/
namespace CompactRisc

/-- Lexical conventions of the source. -/
structure Dialect where
  /-- A token that starts with this mark ends the line; the empty mark ends none. -/
  commentMark : String := "#"
  /-- The first token of a define, in upper or lower case. -/
  defineKeyword : String := "`define"
  /-- The start of the name of every label. -/
  labelMark : String := "."
  /-- Stands between a label and its loading register. -/
  loadSeparator : Char := '$'
  deriving DecidableEq, Repr

namespace Dialect

def isComment (d : Dialect) (token : String) : Bool :=
  !d.commentMark.isEmpty && Text.startsWith token d.commentMark

def isDefine (d : Dialect) (token : String) : Bool :=
  Text.eqIgnoringCase token d.defineKeyword

/-- The token is the name of a label, or a reference to one. -/
def isLabel (d : Dialect) (token : String) : Bool :=
  Text.startsWith token d.labelMark

end Dialect

end CompactRisc
