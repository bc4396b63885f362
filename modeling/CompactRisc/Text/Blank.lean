/-!
# Blanks and words

A blank is a code point with the Unicode property White_Space. A line of source is read as its
words: the maximal runs of characters that are not blank.

* `isBlank` is the property, 25 code points.
* `words` cuts a text at its blanks and drops the empty pieces.
* `trimEnd` drops the blanks at the end of a text.
-/
namespace CompactRisc.Text

/-- The Unicode property White_Space. -/
def isBlank (c : Char) : Bool :=
  let n := c.toNat
  (0x09 ≤ n && n ≤ 0x0D) || n == 0x20 || n == 0x85 || n == 0xA0 || n == 0x1680 ||
    (0x2000 ≤ n && n ≤ 0x200A) || n == 0x2028 || n == 0x2029 || n == 0x202F || n == 0x205F ||
    n == 0x3000

/-- The words of a text, in order; none of them is empty or holds a blank. -/
def words (text : String) : List String :=
  ((text.toList.splitOnP isBlank).filter (!·.isEmpty)).map String.ofList

def trimEnd (text : String) : String :=
  String.ofList (text.toList.reverse.dropWhile isBlank).reverse

/-- `mark` stands at the start of `text`; the empty mark stands at the start of every text. -/
def startsWith (text mark : String) : Bool :=
  mark.toList.isPrefixOf text.toList

/-- Equality up to the case of the ASCII letters. -/
def eqIgnoringCase (s t : String) : Bool :=
  s.toList.map Char.toLower == t.toList.map Char.toLower

end CompactRisc.Text
