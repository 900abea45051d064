import StackScript.Typing.Batch

/-!
# Inference that keeps what it learns

When a call names a class from outside the batch, the class is put on record, and all that is typed
later is typed against the registry that has it. Typing also writes into a body, in every round and
not only in the last pass. So `inferKeeping` carries a registry and a batch along: expressions and
statements hand on the site they leave, methods the registry, and a round goes on with what the one
before it has written. `infer` does without both. It types all methods of a round where they stand,
and looks classes from outside up anew. For units as they are read, the two come to the same
(`inferKeeping_of_read`).
-/

namespace StackScript.Typing

open StackScript.Source StackScript.Syntax

/-! ## Calls -/

/-- Looks for the class that a call goes to; answers with its name or the fault of the target, and
with the site after that, which has a class on record that was found outside the batch. -/
def Site.seek (site : Site) (receiver : Option Ident) (method : Ident) :
    Except (TypeFault × Span) String × Site :=
  match receiver with
  | some written =>
    let (registry, answer) := site.registry.resolve site.externals written.name site.cls
    (answer.mapError (·, written.span), { site with registry })
  | none =>
    match site.registry.localMethod? site.cls method.name with
    | some (owner, _) => (.ok owner, site)
    | none => (.error (.unknownMethod site.cls method.name, method.span), site)

/-- The method of the class that a call goes to. -/
def Site.reached (site : Site) (method : Ident) (target : Except (TypeFault × Span) String) :
    Except (TypeFault × Span) (String × Option MethodEntry) :=
  target.map fun cls => (cls, site.registry.method? cls method.name)

/-- Types a call with typed arguments to a method of a class: the target's fault comes before those
of the arguments, and all others after. -/
def typeCall (target : Except (TypeFault × Span) (String × Option MethodEntry))
    (receiver : Option Ident) (method : Ident) (args : List Typed) (resolved : Option String)
    (note : Note) : Typed :=
  let exprs := args.map Typed.expr
  let inArgs : Findings := args.foldr (fun arg found => arg.found ++ found) {}
  match target with
  | .error (fault, span) =>
    .mk' (.call receiver method exprs resolved note) none (.fault fault span ++ inArgs)
  | .ok (cls, none) =>
    .mk' (.call receiver method exprs resolved note) none
      (inArgs ++ .fault (.unknownMethod cls method.name) method.span)
  | .ok (cls, some m) =>
    .mk' (.call receiver method exprs (some cls) note) m.ret.known?
      (inArgs ++ callFindings cls m args note.span)

/-! ## Expressions -/

mutual

/-- Types an expression; answers with it and the site after it. The target of a call is looked for
before its arguments are typed, its method after that. -/
def Site.inferKeeping (locals : Locals) : Expr → Site → Typed × Site
  | .int v note, site => (.mk' (.int v note) (some .int) {}, site)
  | .bool v note, site => (.mk' (.bool v note) (some .boolean) {}, site)
  | .string v note, site => (.mk' (.string v note) (some .string) {}, site)
  | .var name note, site => (typeVar locals name note, site)
  | .call receiver method args resolved note, site =>
    let (target, site) := site.seek receiver method
    let (args, site) := Site.valuesKeeping locals args site
    (typeCall (site.reached method target) receiver method args resolved note, site)
  | .index array position note, site =>
    let (array, site) := Site.inferKeeping locals array site
    let (position, site) := Site.inferKeeping locals position site
    (typeIndex array.asValue position.asValue note, site)
  | .length value note, site =>
    let (value, site) := Site.inferKeeping locals value site
    (typeLength value.asValue note, site)
  | .unary op operand note, site =>
    let (operand, site) := Site.inferKeeping locals operand site
    (typeUnary op operand.asValue note, site)
  | .binary op left right note, site =>
    let (left, site) := Site.inferKeeping locals left site
    let (right, site) := Site.inferKeeping locals right site
    (typeBinary op left.asValue right.asValue note, site)

/-- Types expressions that are used as values, in order. -/
def Site.valuesKeeping (locals : Locals) : List Expr → Site → List Typed × Site
  | [], site => ([], site)
  | e :: es, site =>
    let (typed, site) := Site.inferKeeping locals e site
    let (rest, site) := Site.valuesKeeping locals es site
    (typed.asValue :: rest, site)

end

/-- Types an expression that is used as a value. -/
def Site.valueKeeping (locals : Locals) (e : Expr) (site : Site) : Typed × Site :=
  let (typed, site) := Site.inferKeeping locals e site
  (typed.asValue, site)

/-- The value used as a condition: one that is no boolean is a fault. -/
def Typed.asCondition (typed : Typed) : Typed :=
  match typed.type with
  | none | some .boolean => typed
  | some found =>
    { typed with
      found := typed.found ++ .fault (.typeMismatch "condition" .boolean found) typed.expr.span }

/-- Types a condition. -/
def Site.conditionKeeping (locals : Locals) (e : Expr) (site : Site) : Typed × Site :=
  let (typed, site) := Site.valueKeeping locals e site
  (typed.asCondition, site)

/-! ## Statements -/

mutual

/-- Types a statement; answers with it, the locals after it, what was found, and the site after
it. -/
def Site.stmtKeeping (locals : Locals) : Stmt → Site → (Stmt × Locals × Findings) × Site
  | .expr value span, site =>
    let (typed, site) := Site.inferKeeping locals value site
    ((.expr typed.expr span, locals, typed.found), site)
  | .assign target value span, site =>
    let (typed, site) := Site.valueKeeping locals value site
    let (after, found) := assign locals target.name typed.type typed.expr.span
    ((.assign target typed.expr span, after, typed.found ++ found), site)
  | .cond chain span, site =>
    let ((chain, after, found), site) := Site.chainKeeping locals chain site
    ((.cond chain span, after, found), site)
  | .loop condition body span, site =>
    let (typed, site) := Site.conditionKeeping locals condition site
    let ((body, after, found), site) := Site.blockKeeping locals body site
    ((.loop typed.expr body span, after, typed.found ++ found), site)
  | .ret (some value) span, site =>
    let (typed, site) := Site.valueKeeping locals value site
    ((.ret (some typed.expr) span, locals, typed.found ++ site.valueFindings typed span), site)
  | .ret none span, site => ((.ret none span, locals, site.returnFindings .void span), site)
  | .puts value span, site =>
    let (typed, site) := Site.valueKeeping locals value site
    ((.puts typed.expr span, locals, typed.found), site)
  | .raise value span, site =>
    let (typed, site) := Site.valueKeeping locals value site
    ((.raise typed.expr span, locals, typed.found), site)

/-- Types a block. -/
def Site.blockKeeping (locals : Locals) : Block → Site → (Block × Locals × Findings) × Site
  | .mk stmts span, site =>
    let ((stmts, after, found), site) := Site.stmtsKeeping locals stmts site
    ((.mk stmts span, after, found), site)

/-- Types statements in order. -/
def Site.stmtsKeeping (locals : Locals) :
    List Stmt → Site → (List Stmt × Locals × Findings) × Site
  | [], site => (([], locals, {}), site)
  | stmt :: rest, site =>
    let ((stmt, after, found), site) := Site.stmtKeeping locals stmt site
    let ((rest, after, more), site) := Site.stmtsKeeping after rest site
    ((stmt :: rest, after, found ++ more), site)

/-- Types the branches of a conditional in order. -/
def Site.chainKeeping (locals : Locals) : Chain → Site → (Chain × Locals × Findings) × Site
  | .done, site => ((.done, locals, {}), site)
  | .otherwise body, site =>
    let ((body, after, found), site) := Site.blockKeeping locals body site
    ((.otherwise body, after, found), site)
  | .branch condition body rest, site =>
    let (typed, site) := Site.conditionKeeping locals condition site
    let ((body, after, found), site) := Site.blockKeeping locals body site
    let ((rest, after, more), site) := Site.chainKeeping after rest site
    ((.branch typed.expr body rest, after, typed.found ++ found ++ more), site)

end

/-! ## Bodies -/

/-- Types the statements of a body; a bare expression at the end is the body's value. -/
def Site.bodyStmtsKeeping (locals : Locals) : List Stmt → Site → (List Stmt × Findings) × Site
  | [], site => (([], {}), site)
  | [.expr value span], site =>
    let (typed, site) := Site.inferKeeping locals value site
    (([.expr typed.expr span], typed.found ++ site.implicitReturn typed), site)
  | stmt :: rest, site =>
    let ((stmt, after, found), site) := Site.stmtKeeping locals stmt site
    let ((rest, more), site) := Site.bodyStmtsKeeping after rest site
    ((stmt :: rest, found ++ more), site)

/-- Types the body of a method whose parameters have the given types. -/
def Site.bodyKeeping (site : Site) (m : Method) (types : List (Option Ty)) :
    (Block × Findings) × Site :=
  let ((stmts, found), after) :=
    Site.bodyStmtsKeeping (paramLocals m.params types) m.body.stmts site
  ((.mk stmts m.body.span, site.missingReturn m ++ found), after)

/-! ## Visiting methods -/

section

variable {σ α : Type}

/-- Goes through a list in order, changing its elements where they stand, along with a state. -/
def visitList (visit : α → σ → α × σ) : List α → σ → List α × σ
  | [], state => ([], state)
  | x :: rest, state =>
    let (x, state) := visit x state
    let (rest, state) := visitList visit rest state
    (x :: rest, state)

variable (visit : String → String → Method → σ → Method × σ)

mutual

/-- Goes through the methods of a class in order; `visit` also gets the unit and the class of the
method. -/
def visitClass (file : String) (package enclosing : Option String) :
    ClassDef → σ → ClassDef × σ
  | .mk name members synthetic span, state =>
    let qualified := qualify package enclosing name.name
    let (members, state) := visitMembers file package qualified members state
    (.mk name members synthetic span, state)

/-- Goes through the methods among the members of a class in order. -/
def visitMembers (file : String) (package : Option String) (cls : String) :
    List Member → σ → List Member × σ
  | [], state => ([], state)
  | .method m :: rest, state =>
    let (m, state) := visit file cls m state
    let (rest, state) := visitMembers file package cls rest state
    (.method m :: rest, state)
  | .nested c :: rest, state =>
    let (c, state) := visitClass file package (some cls) c state
    let (rest, state) := visitMembers file package cls rest state
    (.nested c :: rest, state)

end

/-- Goes through the methods of an item in order; loose code is left alone. -/
def visitItem (file : String) (package : Option String) (item : Item) (state : σ) : Item × σ :=
  match item with
  | .cls c =>
    let (c, state) := visitClass visit file package none c state
    (.cls c, state)
  | item => (item, state)

/-- Goes through the methods of a unit in order. -/
def visitUnit (program : Program) (state : σ) : Program × σ :=
  let (items, state) :=
    visitList (visitItem visit program.source program.packageName) program.items state
  ({ program with items }, state)

/-- Goes through the methods of a batch in order. -/
def visitBatch (batch : List Program) (state : σ) : List Program × σ :=
  visitList (visitUnit visit) batch state

end

/-! ## Rounds and the last pass -/

section

variable (externals : Externals)

/-- Tries to settle the return type of a method that has none yet, and leaves in its body whatever
was found on the way. -/
def settleKeeping (file cls : String) (m : Method) (registry : Registry) : Method × Registry :=
  match registry.methodAt? cls m.name.name file m.span with
  | none => (m, registry)
  | some entry =>
    if entry.ret = .pending then
      let ((body, found), after) :=
        (siteOf externals registry file cls m none).bodyKeeping m entry.params
      match found.settled? with
      | some type => ({ m with body }, after.registry.setReturn cls m.name.name (.inferred type))
      | none => ({ m with body }, after.registry)
    else (m, registry)

/-- Rounds over a batch that is written into, until one settles nothing or `rounds` are done. -/
def roundsKeeping : Nat → List Program × Registry → List Program × Registry
  | 0, state => state
  | rounds + 1, (batch, registry) =>
    let after := visitBatch (settleKeeping externals) batch registry
    if after.2.pendingCount = registry.pendingCount then after else roundsKeeping rounds after

/-- Types a method for good, and adds its diagnostics to those found before; a method that is not on
record is left alone. -/
def annotateKeeping (file cls : String) (m : Method) (made : Declared) : Method × Declared :=
  match made.1.methodAt? cls m.name.name file m.span with
  | none => (m, made)
  | some entry =>
    let site := siteOf externals made.1 file cls m entry.ret.known?
    let ((body, found), after) := site.bodyKeeping m entry.params
    let unsettled := if entry.ret = .pending then [incomplete file cls m] else []
    ({ m with body, retType := entry.ret.known? },
      (after.registry, made.2 ++ (unsettled ++ found.faults.map site.diagnostic)))

/-- Types a batch; every round goes on with what the one before it has written and learnt. -/
def inferKeeping (batch : List Program) : Inference :=
  let (declared, faults) := declareAll batch
  let (written, settled) := roundsKeeping externals (declared.pendingCount + 1) (batch, declared)
  let (done, registry, diagnostics) :=
    visitBatch (annotateKeeping externals) written (settled, faults)
  ⟨registry, done, diagnostics⟩

end

end StackScript.Typing
