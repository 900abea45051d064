import StackScript.Text.Ranges

/-!
# Blank characters

The characters that count as white space, and trimming them from the ends of a text. The set is
the White_Space property: the ASCII blanks, the next-line control, the no-break space and the
typographic spaces and separators.
-/

namespace StackScript.Text

/-- The code points that are white space. -/
def blankRanges : Ranges :=
  [(0x9, 0xd), (0x20, 0x20), (0x85, 0x85), (0xa0, 0xa0), (0x1680, 0x1680), (0x2000, 0x200a),
    (0x2028, 0x2029), (0x202f, 0x202f), (0x205f, 0x205f), (0x3000, 0x3000)]

/-- The character is white space. -/
def isBlank (c : Char) : Bool := blankRanges.contain c.toNat

/-- The text without its leading white space. -/
def trimLeft (cs : List Char) : List Char := cs.dropWhile isBlank

/-- The text without its trailing white space. -/
def trimRight (cs : List Char) : List Char := (trimLeft cs.reverse).reverse

/-- The text without white space at either end. -/
def trim (cs : List Char) : List Char := trimRight (trimLeft cs)

end StackScript.Text
