import StackScript.Code.Emit
import StackScript.Code.Listing
import StackScript.Code.Payload
import StackScript.Files.Path

/-!
# Generating classes

The classes of a unit become class files, an outer class before those nested in it, and class files
become what is handed out: payloads or listings, each with the path it belongs at. Generation goes
on up to the first fault; what was made before it stays.
-/

namespace StackScript.Code

open StackScript.Source StackScript.Syntax StackScript.Text

/-! ## Options -/

/-- The form in which classes are handed out. -/
inductive Backend where
  /-- Payloads that can be loaded. -/
  | bytecode
  /-- Listings for reading, which cannot be loaded. -/
  | listing
  deriving DecidableEq, Repr, Inhabited

namespace Backend

/-- The form with the given name. -/
def parse? : String → Option Backend
  | "bytecode" => some bytecode
  | "listing" => some listing
  | _ => none

/-- The extension of the files of a form. -/
def extension : Backend → String
  | bytecode => "mbc"
  | listing => "masm"

end Backend

/-- How classes are generated. -/
structure Options where
  backend : Backend := .bytecode
  target : Target := .latest
  /-- Extensions that every class file enables when it is loaded. -/
  extensions : List String := []
  deriving DecidableEq, Repr

/-! ## Class files -/

/-- Things made one after another, and the fault that ended it, if there was one. -/
structure Made (α : Type) where
  made : List α
  fault : Option CodeFault

namespace Made

variable {α β : Type}

/-- Nothing, and no fault. -/
def nothing : Made α := ⟨[], none⟩

/-- A fault before anything was made. -/
def failed (fault : CodeFault) : Made α := ⟨[], some fault⟩

/-- What is made after `first`, if that did not fail. -/
def andThen (first second : Made α) : Made α :=
  match first.fault with
  | some _ => first
  | none => ⟨first.made ++ second.made, second.fault⟩

/-- One thing made, or a fault. -/
def ofExcept : Except CodeFault α → Made α
  | .ok a => ⟨[a], none⟩
  | .error fault => failed fault

/-- Everything that was made, each thing changed. -/
def map (f : α → β) (made : Made α) : Made β := ⟨made.made.map f, made.fault⟩

/-- Everything, unless there was a fault. -/
def toExcept (made : Made α) : Except CodeFault (List α) :=
  match made.fault with
  | some fault => .error fault
  | none => .ok made.made

end Made

/-! ## References -/

/-- The references of the class `cls` once a call to `name` was emitted in it: the class itself is
not among them, and no other class stands there twice. -/
def addReference (cls : String) (references : List String) (name : String) : List String :=
  if name = cls || references.contains name then references else references ++ [name]

mutual

/-- The references after an expression. The calls in the arguments of a call come before it, as
their code does. -/
def exprReferences (cls : String) (references : List String) : Expr → List String
  | .int _ _ | .bool _ _ | .string _ _ | .var _ _ => references
  | .call _ _ args target _ =>
    let inner := argsReferences cls references args
    match target with
    | some name => addReference cls inner name
    | none => inner
  | .index array position _ => exprReferences cls (exprReferences cls references array) position
  | .length value _ => exprReferences cls references value
  | .unary _ operand _ => exprReferences cls references operand
  | .binary _ left right _ => exprReferences cls (exprReferences cls references left) right

/-- The references after arguments. -/
def argsReferences (cls : String) (references : List String) : List Expr → List String
  | [] => references
  | arg :: args => argsReferences cls (exprReferences cls references arg) args

end

mutual

/-- The references after a statement. -/
def stmtReferences (cls : String) (references : List String) : Stmt → List String
  | .expr value _ | .assign _ value _ | .ret (some value) _ | .puts value _ | .raise value _ =>
    exprReferences cls references value
  | .ret none _ => references
  | .cond chain _ => chainReferences cls references chain
  | .loop condition body _ => blockReferences cls (exprReferences cls references condition) body

/-- The references after a block. -/
def blockReferences (cls : String) (references : List String) : Block → List String
  | .mk stmts _ => stmtsReferences cls references stmts

/-- The references after statements. -/
def stmtsReferences (cls : String) (references : List String) : List Stmt → List String
  | [] => references
  | stmt :: stmts => stmtsReferences cls (stmtReferences cls references stmt) stmts

/-- The references after the branches of a conditional. -/
def chainReferences (cls : String) (references : List String) : Chain → List String
  | .done => references
  | .otherwise body => blockReferences cls references body
  | .branch condition body rest =>
    chainReferences cls (blockReferences cls (exprReferences cls references condition) body) rest

end

/-- The references of the class `cls` with the given methods, gathered as their code is emitted. -/
def methodsReferences (cls : String) (methods : List Method) : List String :=
  methods.foldl (fun references m => blockReferences cls references m.body) []

/-! ## Class files of a unit -/

/-- The class file of a class with the given qualified name. -/
def classFile (options : Options) (file qualified : String) (c : ClassDef) :
    Except CodeFault ClassFile := do
  let methods ← c.methods.mapM (methodCode file)
  pure
    { magic := ClassFile.rightMagic
      target := options.target
      name := qualified
      sourceFile := file
      references := methodsReferences qualified c.methods
      methods
      extensions := options.extensions }

mutual

/-- The class files of a class and of the classes nested in it. -/
def classFiles (options : Options) (file : String) (package enclosing : Option String) :
    ClassDef → Made ClassFile
  | .mk name members synthetic span =>
    let qualified := qualify package enclosing name.name
    (Made.ofExcept (classFile options file qualified (.mk name members synthetic span))).andThen
      (nestedClassFiles options file package qualified members)

/-- The class files of the classes among the members of the class `outer`. -/
def nestedClassFiles (options : Options) (file : String) (package : Option String)
    (outer : String) : List Member → Made ClassFile
  | [] => .nothing
  | .method _ :: rest => nestedClassFiles options file package outer rest
  | .nested c :: rest =>
    (classFiles options file package (some outer) c).andThen
      (nestedClassFiles options file package outer rest)

end

/-- The class files of an item; loose code is a fault. -/
def itemClassFiles (options : Options) (file : String) (package : Option String) :
    Item → Made ClassFile
  | .cls c => classFiles options file package none c
  | .method m =>
    .failed (.internal .looseMethod file m.span (some ("def " ++ m.name.name)))
  | .stmt s => .failed (.internal .looseStatement file s.span none)

/-- The class files of items in order. -/
def itemsClassFiles (options : Options) (file : String) (package : Option String) :
    List Item → Made ClassFile
  | [] => .nothing
  | item :: items =>
    (itemClassFiles options file package item).andThen
      (itemsClassFiles options file package items)

/-- The class files of a unit. -/
def unitClassFiles (options : Options) (program : Program) : Made ClassFile :=
  itemsClassFiles options program.source program.packageName program.items

/-- The class files of the classes of a unit, whatever loose code stands beside them. -/
def classFilesOf (options : Options) (program : Program) : Except CodeFault (List ClassFile) :=
  (itemsClassFiles options program.source program.packageName
    (program.classes.map Item.cls)).toExcept

/-! ## What is handed out -/

/-- The path of a class with the given extension: a directory for each part of its package. -/
def relativePath (qualified extension : String) : String :=
  let (parts, name) :=
    match cutLast '.' qualified.toList with
    | some (package, name) => (piecesBy '.' (String.ofList package), String.ofList name)
    | none => ([], qualified)
  Files.join (parts.foldl Files.join "") (name ++ "." ++ extension)

/-- A class as it is handed out. -/
structure Product where
  /-- Qualified name of the class. -/
  name : String
  /-- Path of its file below the output directory. -/
  path : String
  bytes : List UInt8
  deriving DecidableEq, Repr

/-- A class file in the form of a backend. -/
def Product.ofClassFile (backend : Backend) (file : ClassFile) : Product where
  name := file.name
  path := relativePath file.name backend.extension
  bytes :=
    match backend with
    | .bytecode => file.payload
    | .listing => utf8Bytes file.listing

/-- The products of a unit, up to the first fault. -/
def generate (options : Options) (program : Program) : Made Product :=
  (unitClassFiles options program).map (Product.ofClassFile options.backend)

end StackScript.Code
