/-!
# Sets of code points

A set of code points given by inclusive ranges, the form in which character properties are
tabulated.
-/

namespace StackScript.Text

/-- Inclusive ranges of code points. -/
abbrev Ranges := List (Nat × Nat)

/-- Membership in one of the ranges. -/
def Ranges.contain (ranges : Ranges) (n : Nat) : Bool :=
  ranges.any fun range => range.1 ≤ n && n ≤ range.2

theorem Ranges.contain_iff {ranges : Ranges} {n : Nat} :
    ranges.contain n = true ↔ ∃ range ∈ ranges, range.1 ≤ n ∧ n ≤ range.2 := by
  simp [Ranges.contain]

end StackScript.Text
