/-!
# Cutting a text into pieces

Pieces of a text between separators. Neighbouring separators, and separators at either end, leave
empty pieces, so that joining the pieces gives the text back when there is one separator.
-/

namespace StackScript.Text

/-- The pieces between separators, `current` being the start of the first piece, reversed. -/
def piecesFrom (isSeparator : Char → Bool) (current : List Char) :
    List Char → List (List Char)
  | [] => [current.reverse]
  | c :: rest =>
    if isSeparator c then current.reverse :: piecesFrom isSeparator [] rest
    else piecesFrom isSeparator (c :: current) rest

/-- The pieces of a text between separators. -/
def pieces (isSeparator : Char → Bool) (cs : List Char) : List (List Char) :=
  piecesFrom isSeparator [] cs

/-- The pieces of a text between occurrences of one character. -/
def piecesBy (separator : Char) (text : String) : List String :=
  (pieces (· = separator) text.toList).map String.ofList

/-- The text before and after the last occurrence of a character, if it occurs. -/
def cutLast (separator : Char) (cs : List Char) : Option (List Char × List Char) :=
  let tail := cs.reverse.takeWhile (· ≠ separator)
  match cs.reverse.dropWhile (· ≠ separator) with
  | [] => none
  | _ :: front => some (front.reverse, tail.reverse)

end StackScript.Text
