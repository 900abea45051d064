import StackScript.Signature
import StackScript.Typing.Fault

/-!
# The class registry

The classes of a batch by qualified name, with what is known of their methods, in the order in
which they were declared. Class names as written are resolved against it: `lookup` says what a
name means inside a class, and `resolve` in addition keeps what it learnt from outside the batch.
-/

namespace StackScript.Typing

open StackScript.Source

/-! ## Entries -/

/-- What is known of a method's return type. -/
inductive ReturnState where
  | declared (type : Ty)
  | inferred (type : Ty)
  /-- Not inferred yet. -/
  | pending
  /-- Declared as a type that does not exist. -/
  | invalid
  deriving DecidableEq, Repr

/-- The return type, as far as it is known. -/
def ReturnState.known? : ReturnState → Option Ty
  | declared type | inferred type => some type
  | pending | invalid => none

/-- A method on record. -/
structure MethodEntry where
  name : String
  /-- Parameter types; nothing stands for a type that does not exist. -/
  params : List (Option Ty)
  ret : ReturnState
  /-- The unit and the place of the definition, for methods of the batch. -/
  origin : Option (String × Span)
  deriving DecidableEq, Repr

/-- A class on record. -/
structure ClassEntry where
  /-- Qualified name. -/
  name : String
  package : Option String
  /-- Qualified name of the class around it. -/
  enclosing : Option String
  methods : List MethodEntry
  /-- It comes from outside the batch. -/
  isExternal : Bool
  deriving DecidableEq, Repr

/-- The method of the class with the given name. -/
def ClassEntry.method? (entry : ClassEntry) (name : String) : Option MethodEntry :=
  entry.methods.find? (·.name = name)

/-- Puts a method in the place of the one with its name, or at the end. -/
def putMethod (method : MethodEntry) : List MethodEntry → List MethodEntry
  | [] => [method]
  | m :: rest => if m.name = method.name then method :: rest else m :: putMethod method rest

/-- The entry of a method of which only the signature is known. -/
def MethodEntry.ofSig (sig : MethodSig) : MethodEntry :=
  ⟨sig.name, sig.params.map some, .declared sig.ret, none⟩

/-- The entry of a class of which only the signature is known; a method given twice has the place
of the first and the signature of the last. -/
def ClassEntry.ofSig (sig : ClassSig) : ClassEntry where
  name := sig.name
  package := none
  enclosing := none
  methods := sig.methods.foldl (fun methods m => putMethod (.ofSig m) methods) []
  isExternal := true

/-! ## The registry -/

/-- The classes on record, in the order in which they came. -/
structure Registry where
  classes : List ClassEntry := []
  deriving DecidableEq, Repr

namespace Registry

/-- The class with the given qualified name. -/
def class? (registry : Registry) (name : String) : Option ClassEntry :=
  registry.classes.find? (·.name = name)

/-- A class with the given qualified name is on record. -/
def has (registry : Registry) (name : String) : Bool := (registry.class? name).isSome

/-- The method of a class. -/
def method? (registry : Registry) (cls method : String) : Option MethodEntry :=
  (registry.class? cls).bind (·.method? method)

/-- The method of a class, provided that it is the one defined at the given place. -/
def methodAt? (registry : Registry) (cls method file : String) (span : Span) :
    Option MethodEntry :=
  (registry.method? cls method).filter (·.origin = some (file, span))

/-- Adds an entry, unless its name is taken. -/
def enroll (registry : Registry) (entry : ClassEntry) : Registry :=
  if registry.has entry.name then registry else ⟨registry.classes ++ [entry]⟩

/-- Changes the class with the given name. -/
def modify (registry : Registry) (name : String) (change : ClassEntry → ClassEntry) : Registry :=
  ⟨registry.classes.map fun entry => if entry.name = name then change entry else entry⟩

/-- Declares a class of the batch; declaring it again changes nothing. -/
def declareClass (registry : Registry) (name : String) (package enclosing : Option String) :
    Registry :=
  registry.enroll ⟨name, package, enclosing, [], false⟩

/-- Declares a method of a class on record that has no method of that name yet. -/
def declareMethod (registry : Registry) (cls : String) (method : MethodEntry) :
    Except TypeFault Registry :=
  match registry.class? cls with
  | none => .error (.unknownClass cls)
  | some entry =>
    if (entry.method? method.name).isSome then .error (.duplicateMethod cls method.name)
    else .ok (registry.modify cls fun entry => { entry with methods := entry.methods ++ [method] })

/-- Sets the return type of a method on record. -/
def setReturn (registry : Registry) (cls method : String) (ret : ReturnState) : Registry :=
  registry.modify cls fun entry =>
    { entry with
      methods := entry.methods.map fun m => if m.name = method then { m with ret } else m }

/-- The classes of the batch. -/
def batchClasses (registry : Registry) : List ClassEntry :=
  registry.classes.filter (!·.isExternal)

/-! ## Scopes and resolution -/

/-- A class name and the names of the classes around it, at most `fuel` of them. -/
def scopesFrom (registry : Registry) : Nat → String → List String
  | 0, _ => []
  | fuel + 1, name =>
    name ::
      match (registry.class? name).bind (·.enclosing) with
      | some outer => registry.scopesFrom fuel outer
      | none => []

/-- A class name and the names of the classes around it, innermost first. No class is around
itself, so there are at most as many as classes on record, and one more that is not. -/
def scopes (registry : Registry) (name : String) : List String :=
  registry.scopesFrom (registry.classes.length + 1) name

/-- What a class name means. -/
inductive Meaning where
  /-- The class on record with this qualified name. -/
  | onRecord (name : String)
  /-- A class from outside the batch. -/
  | outside (sig : ClassSig)
  deriving DecidableEq, Repr

/-- The qualified name of the class that is meant. -/
def Meaning.name : Meaning → String
  | onRecord name => name
  | outside sig => sig.name

/-- The batch classes with the given simple name. -/
def namesakes (registry : Registry) (name : String) : List String :=
  (registry.batchClasses.map ClassEntry.name).filter (simpleName · = name)

/-- What `name` means outside the batch, for a class whose package makes it `inPackage`. -/
def lookupOutside (externals : Externals) (name inPackage : String) :
    Except TypeFault Meaning :=
  match externals inPackage with
  | some sig => .ok (.outside sig)
  | none =>
    match externals name with
    | some sig => .ok (.outside sig)
    | none => .error (.unknownClass name)

/-- What the class name `name` means inside the class `inside`: a class nested in it or in a class
around it, else the class of its package, else the only batch class with that simple name, else a
class from outside, first of its package and then of no package. -/
def lookup (registry : Registry) (externals : Externals) (name inside : String) :
    Except TypeFault Meaning :=
  match ((registry.scopes inside).map (· ++ "$" ++ name)).find? registry.has with
  | some nested => .ok (.onRecord nested)
  | none =>
    let inPackage := qualify ((registry.class? inside).bind (·.package)) none name
    if registry.has inPackage then .ok (.onRecord inPackage)
    else
      match registry.namesakes name with
      | [only] => .ok (.onRecord only)
      | [] => lookupOutside externals name inPackage
      | candidates => .error (.ambiguousClass name candidates)

/-- Resolves a class name inside a class, and keeps a class that it found outside the batch. -/
def resolve (registry : Registry) (externals : Externals) (name inside : String) :
    Registry × Except TypeFault String :=
  match registry.lookup externals name inside with
  | .error fault => (registry, .error fault)
  | .ok (.onRecord found) => (registry, .ok found)
  | .ok (.outside sig) => (registry.enroll (.ofSig sig), .ok sig.name)

/-- The entry of the class that is meant; one on record goes before a signature of the same name. -/
def entry? (registry : Registry) : Meaning → Option ClassEntry
  | .onRecord name => registry.class? name
  | .outside sig => (registry.enroll (.ofSig sig)).class? sig.name

/-- The method that a call without a class reaches from inside a class: its own, or that of the
nearest class around it, together with the name of the class that has it. -/
def localMethod? (registry : Registry) (cls method : String) : Option (String × MethodEntry) :=
  (registry.scopes cls).findSome? fun scope =>
    (registry.method? scope method).map fun entry => (scope, entry)

end Registry

end StackScript.Typing
