import StackScript.Syntax.Tree
import StackScript.Typing.Registry

/-!
# Typing a method body

Expressions are typed against the registry and the types of the locals; statements pass the locals
on. Typing never stops at a fault: the faults are collected in source order, and an expression
that depends on one has no type. Alongside, a body's return values are collected, from which its
return type is inferred when it is not declared.
-/

namespace StackScript.Typing

open StackScript.Source StackScript.Syntax

/-! ## What typing finds -/

/-- What typing a stretch of a body finds. -/
structure Findings where
  /-- Faults and their places, in source order. -/
  faults : List (TypeFault × Span) := []
  /-- The types of returned values, in source order. -/
  returns : List Ty := []
  /-- Some call goes to a method whose return type is not inferred yet. -/
  pending : Bool := false

namespace Findings

/-- What is found in one stretch and then in another. -/
def append (a b : Findings) : Findings :=
  ⟨a.faults ++ b.faults, a.returns ++ b.returns, a.pending || b.pending⟩

instance : Append Findings := ⟨append⟩

/-- A single fault. -/
def fault (f : TypeFault) (span : Span) : Findings := { faults := [(f, span)] }

/-- A single returned value. -/
def returned (type : Ty) : Findings := { returns := [type] }

end Findings

/-- The types of the locals in scope, latest first; a local whose type is unknown because of a
fault has none. -/
abbrev Locals := List (String × Option Ty)

/-- Where a body stands and what can be seen from there. -/
structure Site where
  registry : Registry
  externals : Externals
  /-- Name of the unit. -/
  file : String
  /-- Qualified name of the class. -/
  cls : String
  /-- Name of the method. -/
  method : String
  /-- The return type, when it is known. -/
  expected : Option Ty

/-- An expression with the types written into it, its own type unless there is a fault, and what
was found. -/
structure Typed where
  expr : Expr
  type : Option Ty
  found : Findings

/-- The expression used as a value: one without a value is a fault. -/
def Typed.asValue (typed : Typed) : Typed :=
  match typed.type with
  | some .void =>
    { typed with type := none, found := typed.found ++ .fault .voidValue typed.expr.span }
  | _ => typed

/-- The expression with its type written into it. -/
def Typed.mk' (expr : Expr) (type : Option Ty) (found : Findings) : Typed :=
  ⟨expr.setType type, type, found⟩

/-! ## Operators -/

/-- The type of a unary operation, if it exists. -/
def unaryType? : UnaryOp → Ty → Option Ty
  | .negate, .int => some .int
  | .not, .boolean => some .boolean
  | _, _ => none

/-- The type of a binary operation, if it exists: `+` joins texts as soon as one side is a string,
equality needs equal types on both sides. -/
def binaryType? (op : BinaryOp) (left right : Ty) : Option Ty :=
  match op with
  | .add =>
    if left = .int ∧ right = .int then some .int
    else if left = .string ∨ right = .string then some .string
    else none
  | .sub | .mul | .div | .mod => if left = .int ∧ right = .int then some .int else none
  | .lt | .le | .gt | .ge => if left = .int ∧ right = .int then some .boolean else none
  | .eq | .ne => if left = right then some .boolean else none
  | .and | .or => if left = .boolean ∧ right = .boolean then some .boolean else none

/-! ## Calls -/

/-- The class a call goes to, by name and entry, or the fault of its target. -/
def Site.target (site : Site) (receiver : Option Ident) (method : Ident) :
    Except (TypeFault × Span) (String × Option ClassEntry) :=
  match receiver with
  | some written =>
    match site.registry.lookup site.externals written.name site.cls with
    | .ok meaning => .ok (meaning.name, site.registry.entry? meaning)
    | .error fault => .error (fault, written.span)
  | none =>
    match site.registry.localMethod? site.cls method.name with
    | some (owner, _) => .ok (owner, site.registry.class? owner)
    | none => .error (.unknownMethod site.cls method.name, method.span)

/-- The faults of arguments whose types differ from those of the parameters, numbered from
`number`. -/
def argumentFaults (cls method : String) : Nat → List (Option Ty) → List Typed → Findings
  | number, some expected :: params, arg :: args =>
    let rest := argumentFaults cls method (number + 1) params args
    match arg.type with
    | some found =>
      if expected = found then rest
      else
        let context := "argument " ++ toString number ++ " of " ++ cls ++ "." ++ method
        .fault (.typeMismatch context expected found) arg.expr.span ++ rest
    | none => rest
  | number, none :: params, _ :: args => argumentFaults cls method (number + 1) params args
  | _, _, _ => {}

/-- What is found when a method of `cls` is called with arguments by a call at `span`. -/
def callFindings (cls : String) (entry : MethodEntry) (args : List Typed) (span : Span) :
    Findings :=
  let mismatches :=
    if entry.params.length = args.length then argumentFaults cls entry.name 1 entry.params args
    else .fault (.arityMismatch cls entry.name entry.params.length args.length) span
  mismatches ++ { pending := entry.ret = .pending }

/-- Types a call whose arguments are typed: the target's fault comes before those of the
arguments, and all others after. -/
def Site.call (site : Site) (receiver : Option Ident) (method : Ident) (args : List Typed)
    (resolved : Option String) (note : Note) : Typed :=
  let exprs := args.map Typed.expr
  let inArgs : Findings := args.foldr (fun arg found => arg.found ++ found) {}
  match site.target receiver method with
  | .error (fault, span) =>
    .mk' (.call receiver method exprs resolved note) none (.fault fault span ++ inArgs)
  | .ok (cls, entry) =>
    match entry.bind (·.method? method.name) with
    | none =>
      .mk' (.call receiver method exprs resolved note) none
        (inArgs ++ .fault (.unknownMethod cls method.name) method.span)
    | some m =>
      .mk' (.call receiver method exprs (some cls) note) m.ret.known?
        (inArgs ++ callFindings cls m args note.span)

/-! ## Expressions -/

/-- Types a local variable. -/
def typeVar (locals : Locals) (name : Ident) (note : Note) : Typed :=
  match locals.lookup name.name with
  | some type => .mk' (.var name note) type {}
  | none => .mk' (.var name note) none (.fault (.unknownLocal name.name) note.span)

/-- The fault of a position in an array that is no integer. -/
def positionFindings (position : Typed) : Findings :=
  match position.type with
  | none | some .int => {}
  | some found => .fault (.typeMismatch "array index" .int found) position.expr.span

/-- Types an element of an array, both parts being typed as values. -/
def typeIndex (array position : Typed) (note : Note) : Typed :=
  let expr := Expr.index array.expr position.expr note
  let found := array.found ++ position.found ++ positionFindings position
  match array.type with
  | none => .mk' expr none found
  | some (.array element) => .mk' expr (some element) found
  | some other => .mk' expr none (found ++ .fault (.notIndexable other) array.expr.span)

/-- Types a length, the part being typed as a value. -/
def typeLength (value : Typed) (note : Note) : Typed :=
  let expr := Expr.length value.expr note
  match value.type with
  | none => .mk' expr none value.found
  | some .string | some (.array _) => .mk' expr (some .int) value.found
  | some other => .mk' expr none (value.found ++ .fault (.noLength other) note.span)

/-- Types a unary operation, the operand being typed as a value. -/
def typeUnary (op : UnaryOp) (operand : Typed) (note : Note) : Typed :=
  let expr := Expr.unary op operand.expr note
  match operand.type with
  | none => .mk' expr none operand.found
  | some type =>
    match unaryType? op type with
    | some result => .mk' expr (some result) operand.found
    | none =>
      .mk' expr none (operand.found ++ .fault (.invalidOperands op.symbol type.text) note.span)

/-- Types a binary operation, the operands being typed as values. -/
def typeBinary (op : BinaryOp) (left right : Typed) (note : Note) : Typed :=
  let expr := Expr.binary op left.expr right.expr note
  let found := left.found ++ right.found
  match left.type, right.type with
  | some l, some r =>
    match binaryType? op l r with
    | some result => .mk' expr (some result) found
    | none =>
      let operands := l.text ++ " and " ++ r.text
      .mk' expr none (found ++ .fault (.invalidOperands op.symbol operands) note.span)
  | _, _ => .mk' expr none found

mutual

/-- Types an expression. -/
def Site.infer (site : Site) (locals : Locals) : Expr → Typed
  | .int v note => .mk' (.int v note) (some .int) {}
  | .bool v note => .mk' (.bool v note) (some .boolean) {}
  | .string v note => .mk' (.string v note) (some .string) {}
  | .var name note => typeVar locals name note
  | .call receiver method args resolved note =>
    site.call receiver method (site.inferValues locals args) resolved note
  | .index array position note =>
    typeIndex (site.infer locals array).asValue (site.infer locals position).asValue note
  | .length value note => typeLength (site.infer locals value).asValue note
  | .unary op operand note => typeUnary op (site.infer locals operand).asValue note
  | .binary op left right note =>
    typeBinary op (site.infer locals left).asValue (site.infer locals right).asValue note

/-- Types expressions that are used as values. -/
def Site.inferValues (site : Site) (locals : Locals) : List Expr → List Typed
  | [] => []
  | e :: es => (site.infer locals e).asValue :: site.inferValues locals es

end

/-- Types an expression that is used as a value. -/
def Site.value (site : Site) (locals : Locals) (e : Expr) : Typed := (site.infer locals e).asValue

/-- Types a condition. -/
def Site.condition (site : Site) (locals : Locals) (e : Expr) : Typed :=
  let typed := site.value locals e
  match typed.type with
  | none | some .boolean => typed
  | some found =>
    { typed with
      found := typed.found ++ .fault (.typeMismatch "condition" .boolean found) typed.expr.span }

/-! ## Statements -/

/-- The locals after a value of the given type, if it has one, was assigned to a name, and the
fault if the name has another type already. -/
def assign (locals : Locals) (name : String) (type : Option Ty) (span : Span) :
    Locals × Findings :=
  match type, locals.lookup name with
  | some found, some (some existing) =>
    if existing = found then (locals, {})
    else (locals, .fault (.typeMismatch ("assignment to " ++ name) existing found) span)
  | some found, _ => ((name, some found) :: locals, {})
  | none, none => ((name, none) :: locals, {})
  | none, some _ => (locals, {})

/-- What is found when a value of the given type is returned by a statement at `span`. -/
def Site.returnFindings (site : Site) (found : Ty) (span : Span) : Findings :=
  match site.expected with
  | none => .returned found
  | some expected =>
    if expected = found then .returned found
    else
      let context := "return from " ++ site.cls ++ "." ++ site.method
      .fault (.typeMismatch context expected found) span ++ .returned found

/-- What is found when an expression is returned by a statement at `span`. -/
def Site.valueFindings (site : Site) (typed : Typed) (span : Span) : Findings :=
  match typed.type with
  | some type => site.returnFindings type span
  | none => {}

mutual

/-- Types a statement; answers with it, the locals after it, and what was found. -/
def Site.stmt (site : Site) (locals : Locals) : Stmt → Stmt × Locals × Findings
  | .expr value span =>
    let typed := site.infer locals value
    (.expr typed.expr span, locals, typed.found)
  | .assign target value span =>
    let typed := site.value locals value
    let (after, found) := assign locals target.name typed.type typed.expr.span
    (.assign target typed.expr span, after, typed.found ++ found)
  | .cond chain span =>
    let (chain, after, found) := site.chain locals chain
    (.cond chain span, after, found)
  | .loop condition body span =>
    let typed := site.condition locals condition
    let (body, after, found) := site.block locals body
    (.loop typed.expr body span, after, typed.found ++ found)
  | .ret (some value) span =>
    let typed := site.value locals value
    (.ret (some typed.expr) span, locals, typed.found ++ site.valueFindings typed span)
  | .ret none span => (.ret none span, locals, site.returnFindings .void span)
  | .puts value span =>
    let typed := site.value locals value
    (.puts typed.expr span, locals, typed.found)
  | .raise value span =>
    let typed := site.value locals value
    (.raise typed.expr span, locals, typed.found)

/-- Types a block. -/
def Site.block (site : Site) (locals : Locals) : Block → Block × Locals × Findings
  | .mk stmts span =>
    let (stmts, after, found) := site.stmts locals stmts
    (.mk stmts span, after, found)

/-- Types statements in order. -/
def Site.stmts (site : Site) (locals : Locals) : List Stmt → List Stmt × Locals × Findings
  | [] => ([], locals, {})
  | stmt :: rest =>
    let (stmt, after, found) := site.stmt locals stmt
    let (rest, after, more) := site.stmts after rest
    (stmt :: rest, after, found ++ more)

/-- Types the branches of a conditional in order; what one assigns, the next ones see. -/
def Site.chain (site : Site) (locals : Locals) : Chain → Chain × Locals × Findings
  | .done => (.done, locals, {})
  | .otherwise body =>
    let (body, after, found) := site.block locals body
    (.otherwise body, after, found)
  | .branch condition body rest =>
    let typed := site.condition locals condition
    let (body, after, found) := site.block locals body
    let (rest, after, more) := site.chain after rest
    (.branch typed.expr body rest, after, typed.found ++ found ++ more)

end

/-! ## Bodies -/

/-- What is found when the last expression of a body is its value. -/
def Site.implicitReturn (site : Site) (typed : Typed) : Findings :=
  match site.expected, typed.type with
  | none, some found => .returned found
  | some .void, _ | _, none => {}
  | some expected, some found =>
    if expected = found then {}
    else
      let context := "return value of " ++ site.cls ++ "." ++ site.method
      .fault (.typeMismatch context expected found) typed.expr.span

/-- Types the statements of a body; a bare expression at the end is the body's value. -/
def Site.bodyStmts (site : Site) (locals : Locals) : List Stmt → List Stmt × Findings
  | [] => ([], {})
  | [.expr value span] =>
    let typed := site.infer locals value
    ([.expr typed.expr span], typed.found ++ site.implicitReturn typed)
  | stmt :: rest =>
    let (stmt, after, found) := site.stmt locals stmt
    let (rest, more) := site.bodyStmts after rest
    (stmt :: rest, found ++ more)

/-- The fault of a body that can finish without the value its method owes. -/
def Site.missingReturn (site : Site) (m : Method) : Findings :=
  match site.expected with
  | some expected =>
    if !expected.isVoid && !m.body.endsWithExpr && !m.body.exits then
      .fault (.missingReturn site.cls site.method expected) m.name.span
    else {}
  | none => {}

/-- The locals at the start of a body: the parameters, the last of equal names first. -/
def paramLocals (params : List Param) (types : List (Option Ty)) : Locals :=
  ((params.map (·.name.name)).zip types).reverse

/-- Types the body of a method whose parameters have the given types. -/
def Site.body (site : Site) (m : Method) (types : List (Option Ty)) : Block × Findings :=
  let (stmts, found) := site.bodyStmts (paramLocals m.params types) m.body.stmts
  (.mk stmts m.body.span, site.missingReturn m ++ found)

/-- The return type that a body settles on: that of its first returned value, `void` if it returns
none, nothing as long as it returns none but depends on a type that is not inferred yet. -/
def Findings.settled? (found : Findings) : Option Ty :=
  match found.returns with
  | type :: _ => some type
  | [] => if found.pending then none else some .void

end StackScript.Typing
