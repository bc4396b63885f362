import CompactRisc.Dialect
import CompactRisc.Fault
import CompactRisc.Program

/-!
# Defines

A define names a token and what stands for it. All defines of a program are collected before any of
them is used, so their place does not matter. Each token of the other lines is replaced at most
once: a replacement is not looked at again.
-/
namespace CompactRisc

/-- Tokens with their replacements, in the order of the defines. -/
abbrev Defines := List (String × String)

namespace Defines

/-- Adds the define on a line, if it has one. -/
def collect (d : Dialect) (defines : Defines) (l : Line) : Except Fault Defines :=
  if d.isDefine l.first then
    match l.tokens with
    | [_, name, replacement] =>
      if (defines.lookup name).isSome then .error ⟨.defineTwice l.text, l.source⟩
      else .ok (defines ++ [(name, replacement)])
    | _ => .error ⟨.defineArity d.defineKeyword l.text, l.source⟩
  else .ok defines

def ofLines (d : Dialect) (lines : List Line) : Except Fault Defines :=
  lines.foldlM (collect d) []

/-- What stands for a token. -/
def replace (defines : Defines) (token : String) : String :=
  (defines.lookup token).getD token

def replaceLine (defines : Defines) (l : Line) : Line :=
  { l with tokens := l.tokens.map defines.replace }

/-- Removes the defines from a program and puts them to use; also gives back what they are. -/
def apply (d : Dialect) (p : Program) : Except Fault (Program × Defines) := do
  let defines ← ofLines d p.lines
  let rest := p.retain fun l => !d.isDefine l.first
  return (rest.modifyLive fun _ l => defines.replaceLine l, defines)

end Defines

end CompactRisc
