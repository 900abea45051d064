import StackScript.Text.CaseTable

/-!
# Upper and lower case

Full case mapping of a text: every character is replaced by its mapping, which may have several
letters. The one rule that looks at neighbours is that of the capital sigma: it ends a word, and
then becomes the final sigma, when a cased letter stands before it and none after it, characters
that are ignored for case being passed over on both sides.
-/

namespace StackScript.Text

/-- The image of a code point under a run, if the run covers it. -/
def CaseRun.image? : CaseRun → Nat → Option Nat
  | (lo, hi, step, target), n =>
    if lo ≤ n && n ≤ hi && (n - lo) % step == 0 then some (target + (n - lo)) else none

/-- The mapping of one character: its listed spelling, else its run, else itself. -/
def mapCase (spellings : List (Nat × List Nat)) (runs : List CaseRun) (c : Char) : List Char :=
  match spellings.lookup c.toNat with
  | some letters => letters.map Char.ofNat
  | none =>
    match runs.findSome? (·.image? c.toNat) with
    | some n => [Char.ofNat n]
    | none => [c]

/-- The upper-case mapping of one character. -/
def upperChar (c : Char) : List Char := mapCase upperSpellings upperRuns c

/-- The lower-case mapping of one character, regardless of its neighbours. -/
def lowerChar (c : Char) : List Char := mapCase lowerSpellings lowerRuns c

/-- The character has a case. -/
def isCased (c : Char) : Bool := casedRanges.contain c.toNat

/-- The character is passed over when the neighbours of a sigma are looked at. -/
def isCaseIgnorable (c : Char) : Bool := caseIgnorableRanges.contain c.toNat

/-- The first character that is not passed over is cased. -/
def startsCased (cs : List Char) : Bool :=
  match cs.dropWhile isCaseIgnorable with
  | [] => false
  | c :: _ => isCased c

/-- A capital sigma between the reversed text `before` and the text `after` ends a word. -/
def isFinalSigma (before after : List Char) : Bool := startsCased before && !startsCased after

/-- The text in upper case. -/
def upper (cs : List Char) : List Char := cs.flatMap upperChar

/-- The rest of a text in lower case, given what stands before it, last character first. -/
def lowerFrom (before : List Char) : List Char → List Char
  | [] => []
  | c :: rest =>
    (if c = 'Σ' then (if isFinalSigma before rest then ['ς'] else ['σ']) else lowerChar c)
      ++ lowerFrom (c :: before) rest

/-- The text in lower case. -/
def lower (cs : List Char) : List Char := lowerFrom [] cs

end StackScript.Text
