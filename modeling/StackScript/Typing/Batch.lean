import StackScript.Typing.Body

/-!
# Joint inference

A batch is typed as a whole, so that its units may refer to each other in any order. First every
class and method is declared in a registry; then the return types that are not declared are
inferred in rounds, until a round settles none; last, every body is typed once more, types and
call targets are written into it, and the faults are collected. Classes from outside are looked up
anew at each call, and stay outside the registry.
-/

namespace StackScript.Typing

open StackScript.Source StackScript.Syntax

/-! ## Walking a batch -/

/-- A declaration met on the way through a class, with the qualified name of the class. -/
inductive Declaration where
  | cls (name : String) (package enclosing : Option String)
  | method (cls : String) (m : Method)

mutual

/-- The declarations of a class in source order, its own first. -/
def declarations (package enclosing : Option String) : ClassDef → List Declaration
  | .mk name members _ _ =>
    let qualified := qualify package enclosing name.name
    .cls qualified package enclosing :: memberDeclarations package qualified members

/-- The declarations of the members of the class with the given qualified name. -/
def memberDeclarations (package : Option String) (cls : String) : List Member → List Declaration
  | [] => []
  | .method m :: rest => .method cls m :: memberDeclarations package cls rest
  | .nested c :: rest => declarations package (some cls) c ++ memberDeclarations package cls rest

end

/-- The declarations of a unit, each with the unit's name. -/
def unitDeclarations (program : Program) : List (String × Declaration) :=
  (program.classes.flatMap (declarations program.packageName none)).map (program.source, ·)

/-- The declarations of a batch in order. -/
def batchDeclarations (batch : List Program) : List (String × Declaration) :=
  batch.flatMap unitDeclarations

/-- A method of the batch: the unit it is in, the qualified name of its class, and itself. -/
abbrev MethodPlace := String × String × Method

/-- The method, if a declaration is one. -/
def Declaration.place? : String × Declaration → Option MethodPlace
  | (file, .method owner m) => some (file, owner, m)
  | (_, .cls _ _ _) => none

/-- The methods of a batch in order. -/
def batchMethods (batch : List Program) : List MethodPlace :=
  (batchDeclarations batch).filterMap Declaration.place?

/-! ## Declaring -/

/-- The faults of annotations that name no type. -/
def annotationFaults (file : String) (refs : List TypeRef) : List TypeDiagnostic :=
  (refs.filter (·.ty?.isNone)).map fun ref =>
    { fault := .unknownType ref.text, file, span := ref.span }

/-- The entry of a method: its annotations as types. -/
def methodEntry (file : String) (m : Method) : MethodEntry where
  name := m.name.name
  params := m.params.map (·.type.ty?)
  ret :=
    match m.ret with
    | none => .pending
    | some ref =>
      match ref.ty? with
      | some type => .declared type
      | none => .invalid
  origin := some (file, m.span)

/-- A registry and the faults found on the way to it. -/
abbrev Declared := Registry × List TypeDiagnostic

/-- Declares one class or method. -/
def declare (made : Declared) : String × Declaration → Declared
  | (_, .cls name package enclosing) => (made.1.declareClass name package enclosing, made.2)
  | (file, .method cls m) =>
    let faults := made.2 ++ annotationFaults file (m.params.map (·.type) ++ m.ret.toList)
    match made.1.declareMethod cls (methodEntry file m) with
    | .ok registry => (registry, faults)
    | .error fault => (made.1, faults ++ [{ fault, file, span := m.name.span }])

/-- Declares everything in a batch. -/
def declareAll (batch : List Program) : Declared := (batchDeclarations batch).foldl declare ({}, [])

/-! ## Inferring return types -/

/-- The site of a method's body. -/
def siteOf (externals : Externals) (registry : Registry) (file cls : String) (m : Method)
    (expected : Option Ty) : Site :=
  ⟨registry, externals, file, cls, m.name.name, expected⟩

/-- Tries to settle the return type of a method that has none yet. -/
def settleMethod (externals : Externals) (registry : Registry) (place : MethodPlace) : Registry :=
  let (file, cls, m) := place
  match registry.methodAt? cls m.name.name file m.span with
  | none => registry
  | some entry =>
    if entry.ret = .pending then
      match ((siteOf externals registry file cls m none).body m entry.params).2.settled? with
      | some type => registry.setReturn cls m.name.name (.inferred type)
      | none => registry
    else registry

/-- One round over the methods of the batch; each sees what those before it settled. -/
def settleRound (externals : Externals) (places : List MethodPlace) (registry : Registry) :
    Registry :=
  places.foldl (settleMethod externals) registry

/-- The number of methods whose return type is not inferred yet. -/
def Registry.pendingCount (registry : Registry) : Nat :=
  (registry.classes.flatMap ClassEntry.methods).countP (·.ret = .pending)

/-- Rounds until one settles nothing, or `rounds` are done. -/
def settleRounds (externals : Externals) (places : List MethodPlace) : Nat → Registry → Registry
  | 0, registry => registry
  | rounds + 1, registry =>
    let after := settleRound externals places registry
    if after.pendingCount = registry.pendingCount then after
    else settleRounds externals places rounds after

/-- Infers return types as far as they can be inferred. Every round but the last one settles a
method, so there is at most one more of them than methods to settle. -/
def settle (externals : Externals) (places : List MethodPlace) (registry : Registry) : Registry :=
  settleRounds externals places (registry.pendingCount + 1) registry

/-! ## Annotating -/

/-- The diagnostic of a return type that could not be inferred. -/
def incomplete (file cls : String) (m : Method) : TypeDiagnostic where
  fault := .incompleteInference cls m.name.name
  file := file
  span := m.name.span
  trace := some ("in unit " ++ file)

/-- A fault found in a body, as a diagnostic. -/
def Site.diagnostic (site : Site) (found : TypeFault × Span) : TypeDiagnostic where
  fault := found.1
  file := site.file
  span := found.2
  trace := some ("in " ++ site.cls ++ "." ++ site.method ++ "\nin unit " ++ site.file)

/-- Types a method for good; one that is not on record is left alone. -/
def annotateMethod (externals : Externals) (registry : Registry) (file cls : String) (m : Method) :
    Method × List TypeDiagnostic :=
  match registry.methodAt? cls m.name.name file m.span with
  | none => (m, [])
  | some entry =>
    let site := siteOf externals registry file cls m entry.ret.known?
    let (body, found) := site.body m entry.params
    let unsettled := if entry.ret = .pending then [incomplete file cls m] else []
    ({ m with body, retType := entry.ret.known? }, unsettled ++ found.faults.map site.diagnostic)

mutual

/-- Types the methods of a class for good. -/
def annotateClass (externals : Externals) (registry : Registry) (file : String)
    (package enclosing : Option String) : ClassDef → ClassDef × List TypeDiagnostic
  | .mk name members synthetic span =>
    let qualified := qualify package enclosing name.name
    let (members, found) := annotateMembers externals registry file package qualified members
    (.mk name members synthetic span, found)

/-- Types the methods among the members of a class for good. -/
def annotateMembers (externals : Externals) (registry : Registry) (file : String)
    (package : Option String) (cls : String) : List Member → List Member × List TypeDiagnostic
  | [] => ([], [])
  | .method m :: rest =>
    let (m, found) := annotateMethod externals registry file cls m
    let (rest, more) := annotateMembers externals registry file package cls rest
    (.method m :: rest, found ++ more)
  | .nested c :: rest =>
    let (c, found) := annotateClass externals registry file package (some cls) c
    let (rest, more) := annotateMembers externals registry file package cls rest
    (.nested c :: rest, found ++ more)

end

/-- Types the methods of an item for good; loose code is left alone. -/
def annotateItem (externals : Externals) (registry : Registry) (file : String)
    (package : Option String) : Item → Item × List TypeDiagnostic
  | .cls c =>
    let (c, found) := annotateClass externals registry file package none c
    (.cls c, found)
  | item => (item, [])

/-- Types the methods of a unit for good. -/
def annotateUnit (externals : Externals) (registry : Registry) (program : Program) :
    Program × List TypeDiagnostic :=
  let done := program.items.map
    (annotateItem externals registry program.source program.packageName)
  ({ program with items := done.map (·.1) }, done.flatMap (·.2))

/-! ## The whole of it -/

/-- The result of typing a batch. -/
structure Inference where
  registry : Registry
  /-- The batch with types and call targets written in. -/
  batch : List Program
  /-- Everything that is wrong with the batch. -/
  diagnostics : List TypeDiagnostic

/-- Types a batch. -/
def infer (externals : Externals) (batch : List Program) : Inference :=
  let (declared, faults) := declareAll batch
  let registry := settle externals (batchMethods batch) declared
  let done := batch.map (annotateUnit externals registry)
  ⟨registry, done.map (·.1), faults ++ done.flatMap (·.2)⟩

/-- The diagnostics, or only the first of them. -/
def Inference.report (inference : Inference) (firstOnly : Bool) : List TypeDiagnostic :=
  if firstOnly then inference.diagnostics.take 1 else inference.diagnostics

end StackScript.Typing
