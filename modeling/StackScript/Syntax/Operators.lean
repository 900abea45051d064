import StackScript.Syntax.Tree

/-!
# Operators and operands

An expression is written as operands with operators before and between them. `assemble` turns such
a row into a tree: an operator before an operand binds tightest, operators between operands bind by
their level, and operators of one level group from the left.
-/

namespace StackScript.Syntax

open StackScript.Source

/-- How tightly an operator between operands binds; a higher level binds tighter. -/
def BinaryOp.level : BinaryOp → Nat
  | or => 0
  | and => 1
  | eq | ne => 2
  | lt | le | gt | ge => 3
  | add | sub => 4
  | mul | div | mod => 5

/-- The expression that applies a unary operator written at `span`. -/
def applyUnary (op : UnaryOp × Span) (operand : Expr) : Expr :=
  .unary op.1 operand ⟨op.2.merge operand.span, none⟩

/-- The expression that applies a binary operator. -/
def applyBinary (op : BinaryOp) (left right : Expr) : Expr :=
  .binary op left right ⟨left.span.merge right.span, none⟩

/-- The operand with the operators before it, the last of which is applied first. -/
def applyPrefixes (ops : List (UnaryOp × Span)) (operand : Expr) : Expr :=
  ops.foldr applyUnary operand

/-- A left operand and the operator after it, still waiting for the right operand. -/
abbrev Waiting := Expr × BinaryOp

/-- Gives `right` to the waiting operators that bind at least as tightly as `level`, innermost
first; answers with those that still wait and the expression made. -/
def reduce (level : Nat) : List Waiting → Expr → List Waiting × Expr
  | [], right => ([], right)
  | (left, op) :: waiting, right =>
    if level ≤ op.level then reduce level waiting (applyBinary op left right)
    else ((left, op) :: waiting, right)

/-- The tree of a row of operators and operands, after waiting operators and a first operand. -/
def assembleFrom (waiting : List Waiting) (current : Expr) : List (BinaryOp × Expr) → Expr
  | [] => (reduce 0 waiting current).2
  | (op, operand) :: row =>
    let (waiting', left) := reduce op.level waiting current
    assembleFrom ((left, op) :: waiting') operand row

/-- The tree of a first operand and a row of operators with their right operands. -/
def assemble (first : Expr) (row : List (BinaryOp × Expr)) : Expr := assembleFrom [] first row

end StackScript.Syntax
