import CompactRisc.Text.Numeral
import CompactRisc.Resolution

/-!
# Symbol tables

The table of symbols is a JSON array of objects, indented by two spaces for each level, with no line
feed at its end. In a string, the quote, the backslash and the control characters are escaped, and
all other characters stand for themselves.
-/
namespace CompactRisc.SymbolTable

/-- A character inside a JSON string. -/
def escape (c : Char) : List Char :=
  if c = '"' then ['\\', '"']
  else if c = '\\' then ['\\', '\\']
  else if c = '\n' then ['\\', 'n']
  else if c = '\r' then ['\\', 'r']
  else if c = '\t' then ['\\', 't']
  else if c.toNat = 8 then ['\\', 'b']
  else if c.toNat = 12 then ['\\', 'f']
  else if c.toNat < 32 then '\\' :: 'u' :: Text.zeroFilled 16 4 c.toNat
  else [c]

def quote (text : String) : String :=
  String.ofList ('"' :: (text.toList.flatMap escape ++ ['"']))

def object (s : Symbol) : String :=
  "  \x7b\n    \"name\": " ++ quote s.name ++ ",\n    \"address\": " ++ Text.decimal s.address ++
    "\n  \x7d"

def render (symbols : List Symbol) : String :=
  if symbols.isEmpty then "[]"
  else "[\n" ++ ",\n".intercalate (symbols.map object) ++ "\n]"

end CompactRisc.SymbolTable
