import StackScript.Text.Split
import StackScript.Ty

/-!
# Names and signatures

Qualified class names, and what is known of a class without looking at its code: the names,
parameter types and return types of its methods.
-/

namespace StackScript

open StackScript.Text

/-- The qualified name of a class: a nested class is named after the class around it, any other
after its package. -/
def qualify (package enclosing : Option String) (name : String) : String :=
  match enclosing, package with
  | some outer, _ => outer ++ "$" ++ name
  | none, some package => package ++ "." ++ name
  | none, none => name

/-- The last part of a qualified name. -/
def simpleName (qualified : String) : String :=
  let parts := pieces (fun c => c = '.' || c = '$') qualified.toList
  String.ofList (parts.getLast?.getD [])

/-- The signature of a method. -/
structure MethodSig where
  name : String
  params : List Ty
  ret : Ty
  deriving DecidableEq, Repr

/-- The signature as text. -/
def MethodSig.text (sig : MethodSig) : String :=
  sig.name ++ "(" ++ ", ".intercalate (sig.params.map Ty.text) ++ "): " ++ sig.ret.text

/-- The signature of a method that a program can start with. -/
def MethodSig.isEntryPoint (sig : MethodSig) : Bool :=
  sig.name = "main" && sig.params = [.array .string] && sig.ret = .void

/-- The signature of a class. -/
structure ClassSig where
  /-- Qualified name of the class. -/
  name : String
  methods : List MethodSig
  deriving DecidableEq, Repr

/-- What is known of classes outside a batch: the signature of a class by its qualified name. -/
abbrev Externals := String → Option ClassSig

/-- No class is known outside the batch. -/
def Externals.nothing : Externals := fun _ => none

/-- The classes of a list; of several with one name the first counts. -/
def Externals.ofList (classes : List ClassSig) : Externals :=
  fun name => classes.find? (·.name = name)

end StackScript
