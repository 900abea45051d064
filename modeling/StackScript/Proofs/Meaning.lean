import StackScript.Machine.Step
import StackScript.Syntax.Tree

/-!
# The meaning of typed trees

What running a typed tree comes to, told along the tree and not by code. An evaluation prints and
then ends: with a result, with the fault of the program, at a local that has no value yet, or not
within the rounds that its loops were given. Integers are computed as such and wrapped to 64 bits
at the end of each operation.
-/

namespace StackScript.Meaning

open StackScript.Machine StackScript.Syntax

/-! ## Evaluations -/

/-- How an evaluation ends. -/
inductive Ending (α : Type) where
  | done (result : α)
  | failed (fault : RuntimeFault)
  /-- A local was read that has no value yet. -/
  | unassigned
  /-- A loop went on after all its rounds. -/
  | unfinished

/-- The end with a result or with a fault. -/
def Ending.ofExcept {α : Type} : Except RuntimeFault α → Ending α
  | .ok a => .done a
  | .error fault => .failed fault

/-- An evaluation: what it prints, and how it ends. -/
structure Doing (α : Type) where
  out : String := ""
  ending : Ending α

namespace Doing

variable {α β : Type}

/-- The evaluation that comes to a result at once. -/
def value (a : α) : Doing α := { ending := .done a }

/-- The evaluation that fails at once. -/
def fail (fault : RuntimeFault) : Doing α := { ending := .failed fault }

/-- One evaluation and, if it came to a result, the next one. -/
def andThen (first : Doing α) (next : α → Doing β) : Doing β :=
  match first.ending with
  | .done a => ⟨first.out ++ (next a).out, (next a).ending⟩
  | .failed fault => ⟨first.out, .failed fault⟩
  | .unassigned => ⟨first.out, .unassigned⟩
  | .unfinished => ⟨first.out, .unfinished⟩

instance : Monad Doing where
  pure := value
  bind := andThen

/-- A computation that prints nothing. -/
def ofExcept : Except RuntimeFault α → Doing α
  | .ok a => value a
  | .error fault => fail fault

end Doing

/-! ## Operations -/

/-- An integer wrapped to 64 bits. -/
def wrap (n : Int) : Value := .int (Int64.ofInt n)

/-- An operation on two integers. -/
def onIntegers (left right : Value) (f : Int → Int → Except RuntimeFault Value) :
    Except RuntimeFault Value := do
  let a ← left.asInt
  let b ← right.asInt
  f a.toInt b.toInt

/-- An operation on two integers that does not fail. -/
def arithmetic (f : Int → Int → Value) (left right : Value) : Except RuntimeFault Value :=
  onIntegers left right fun a b => .ok (f a b)

/-- An operation on two integers that fails when the right one is zero. -/
def division (f : Int → Int → Value) (left right : Value) : Except RuntimeFault Value :=
  onIntegers left right fun a b => if b = 0 then .error .divisionByZero else .ok (f a b)

/-- The value of a unary operation. -/
def unaryValue (op : UnaryOp) (operand : Value) : Except RuntimeFault Value :=
  match op with
  | .negate => do pure (wrap (-(← operand.asInt).toInt))
  | .not => do pure (.bool !(← operand.asBool))

/-- The value of a binary operation of the given type whose sides both have values; `+` joins text
forms when its type is that of strings, and quotients are rounded towards zero. -/
def binaryValue (op : BinaryOp) (type : Option Ty) (left right : Value) :
    Except RuntimeFault Value :=
  match op with
  | .and => do pure (.bool ((← left.asBool) && (← right.asBool)))
  | .or => do pure (.bool ((← left.asBool) || (← right.asBool)))
  | .add =>
    if type = some .string then .ok (.string (left.text ++ right.text))
    else arithmetic (fun a b => wrap (a + b)) left right
  | .sub => arithmetic (fun a b => wrap (a - b)) left right
  | .mul => arithmetic (fun a b => wrap (a * b)) left right
  | .div => division (fun a b => wrap (a.tdiv b)) left right
  | .mod => division (fun a b => wrap (a.tmod b)) left right
  | .eq => .ok (.bool (left.same right))
  | .ne => .ok (.bool !(left.same right))
  | .lt => arithmetic (fun a b => .bool (a < b)) left right
  | .le => arithmetic (fun a b => .bool (a ≤ b)) left right
  | .gt => arithmetic (fun a b => .bool (b < a)) left right
  | .ge => arithmetic (fun a b => .bool (b ≤ a)) left right

/-- The element of an array at a position. -/
def elementOf (target position : Value) : Except RuntimeFault Value := do
  let n ← position.asInt
  match target with
  | .array items =>
    match if n.toInt < 0 then none else items[n.toInt.toNat]? with
    | some item => pure item
    | none => throw (.indexOutOfBounds n items.length)
  | other => throw (.typeMismatch "array" other.kind)

/-- The number of elements of an array, or of characters of a string. -/
def lengthOf : Value → Except RuntimeFault Value
  | .array items => .ok (wrap items.length)
  | .string s => .ok (wrap s.length)
  | other => .error (.typeMismatch "array or String" other.kind)

/-! ## Expressions -/

/-- The values of the locals, latest first. -/
abbrev Store := List (String × Value)

/-- What calls do: by class, method and arguments. -/
abbrev Calls := String → String → List Value → Doing Value

mutual

/-- The value of an expression; `&&` and `||` look at their right side only if the left one leaves
the value open. -/
def evalExpr (call : Calls) (store : Store) : Expr → Doing Value
  | .int value _ => pure (.int value)
  | .bool value _ => pure (.bool value)
  | .string value _ => pure (.string value)
  | .var name _ =>
    match store.lookup name.name with
    | some value => pure value
    | none => { ending := .unassigned }
  | .call _ method args target _ => do
    let values ← evalArgs call store args
    match target with
    | some cls => call cls method.name values
    | none => .fail (.undefinedMethod "" method.name)
  | .index array position _ => do
    let target ← evalExpr call store array
    let n ← evalExpr call store position
    .ofExcept (elementOf target n)
  | .length value _ => do
    let target ← evalExpr call store value
    .ofExcept (lengthOf target)
  | .unary op operand _ => do
    let value ← evalExpr call store operand
    .ofExcept (unaryValue op value)
  | .binary op left right note => do
    let first ← evalExpr call store left
    match op, first with
    | .and, .bool false => pure (.bool false)
    | .or, .bool true => pure (.bool true)
    | _, _ => do
      let second ← evalExpr call store right
      .ofExcept (binaryValue op note.type first second)

/-- The values of arguments, from left to right. -/
def evalArgs (call : Calls) (store : Store) : List Expr → Doing (List Value)
  | [] => pure []
  | arg :: args => do
    let value ← evalExpr call store arg
    let values ← evalArgs call store args
    pure (value :: values)

end

/-- The truth of a condition. -/
def evalTest (call : Calls) (store : Store) (condition : Expr) : Doing Bool := do
  let value ← evalExpr call store condition
  .ofExcept value.asBool

/-! ## Statements -/

/-- How the run of a method goes on after a statement. -/
inductive Flow where
  /-- With what comes after the statement. -/
  | next (store : Store)
  /-- It does not: the method returns. -/
  | returned (value : Value)

/-- What comes after a statement, unless the method returns. -/
def goOn (next : Store → Doing Flow) : Flow → Doing Flow
  | .next store => next store
  | .returned value => pure (.returned value)

/-- Does a body as long as a test holds, for at most so many rounds. -/
def repeatWhile (test : Store → Doing Bool) (body : Store → Doing Flow) : Nat → Store → Doing Flow
  | 0, _ => { ending := .unfinished }
  | rounds + 1, store => do
    if ← test store then body store >>= goOn (repeatWhile test body rounds)
    else pure (.next store)

section

variable (call : Calls) (rounds : Nat)

mutual

/-- Does a statement. -/
def doStmt : Stmt → Store → Doing Flow
  | .expr value _, store => do
    let _ ← evalExpr call store value
    pure (.next store)
  | .assign target value _, store => do
    let value ← evalExpr call store value
    pure (.next ((target.name, value) :: store))
  | .cond chain _, store => doChain chain store
  | .loop condition body _, store =>
    repeatWhile (evalTest call · condition) (doBlock body) rounds store
  | .ret (some value) _, store => do
    let value ← evalExpr call store value
    pure (.returned value)
  | .ret none _, _ => pure (.returned .void)
  | .puts value _, store => do
    let value ← evalExpr call store value
    { out := value.text ++ "\n", ending := .done (.next store) }
  | .raise value _, store => do
    let value ← evalExpr call store value
    .fail (.raised value.text)

/-- Does the statements of a block. -/
def doBlock : Block → Store → Doing Flow
  | .mk stmts _, store => doStmts stmts store

/-- Does statements in order. -/
def doStmts : List Stmt → Store → Doing Flow
  | [], store => pure (.next store)
  | stmt :: stmts, store => doStmt stmt store >>= goOn (doStmts stmts)

/-- Does the first branch whose condition holds. -/
def doChain : Chain → Store → Doing Flow
  | .done, store => pure (.next store)
  | .otherwise body, store => doBlock body store
  | .branch condition body rest, store => do
    if ← evalTest call store condition then doBlock body store
    else doChain rest store

end

/-- Does the statements of a body; a bare expression at the end of one that owes a value is that
value. -/
def doBody (owes : Bool) : List Stmt → Store → Doing Flow
  | [], store => pure (.next store)
  | [.expr value span], store =>
    if owes then do
      let value ← evalExpr call store value
      pure (.returned value)
    else doStmt call rounds (.expr value span) store
  | stmt :: stmts, store => doStmt call rounds stmt store >>= goOn (doBody owes stmts)

/-! ## Methods -/

/-- What a method returns for arguments, which its parameters take in order. -/
def runMethod (m : Method) (args : List Value) : Doing Value := do
  match ← doBody call rounds (m.retType ≠ some .void) m.body.stmts
    ((m.params.map (·.name.name)).zip args) with
  | .returned value => pure value
  | .next _ => pure .void

end

/-- The methods that calls may go to. -/
structure World where
  /-- The method of a class with a name, if the class is in the batch. -/
  method? : String → String → Option Method
  /-- What calls of all other classes do, with room for so many calls inside each other. -/
  outside : Nat → Calls

/-- Calls a method, with room for so many calls inside each other. -/
def callMethod (world : World) (rounds : Nat) : Nat → Calls
  | 0, cls, method, _ => .fail (.stackOverflow cls method)
  | room + 1, cls, method, args =>
    match world.method? cls method with
    | some m => runMethod (callMethod world rounds room) rounds m args
    | none => world.outside room cls method args

/-- Runs a method as the first one of all. -/
def runFirst (world : World) (rounds : Nat) (m : Method) (args : List Value) : Doing Value :=
  runMethod (callMethod world rounds (maxDepth - 1)) rounds m args

end StackScript.Meaning
