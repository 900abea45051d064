import StackScript.Code.Generate
import StackScript.Loading.Fault
import StackScript.Machine.Unit

/-!
# The environment

Where classes outside a batch come from: the native classes of the enabled extensions, and payloads
in directories. Typing takes their signatures from it and loading takes units. A payload may name
extensions, which are enabled when it is loaded.
-/

namespace StackScript.Loading

open StackScript.Code StackScript.Files StackScript.Machine

/-- Where classes outside a batch come from. -/
structure Environment where
  /-- The extensions that can be enabled. -/
  known : List Extension := Extension.all
  /-- The enabled extensions, in the order in which they were enabled. -/
  enabled : List Extension := []
  /-- Directories of payloads. -/
  classpath : List String := []
  /-- Directories of payloads that are searched after the others. -/
  loadPath : List String := []
  deriving DecidableEq, Repr

namespace Environment

/-- Enables the extension with a name; enabling it again changes nothing. -/
def enable (env : Environment) (name : String) : Except LoadFault Environment :=
  match env.known.find? (·.name = name) with
  | none => .error (.unknownExtension name (env.known.map Extension.name))
  | some extension =>
    if env.enabled.contains extension then .ok env
    else .ok { env with enabled := env.enabled ++ [extension] }

/-- Enables extensions in order up to the first that is not known; those before it stay enabled. -/
def enableAll (env : Environment) : List String → Environment × Except LoadFault Unit
  | [] => (env, .ok ())
  | name :: names =>
    match env.enable name with
    | .error fault => (env, .error fault)
    | .ok env => env.enableAll names

/-- The native class with a name. -/
def native? (env : Environment) (name : String) : Option NativeClass :=
  nativeClass? env.enabled name

/-- The path of the payload of a class: in the first directory that has a file for it. -/
def locate (env : Environment) (disk : Disk) (name : String) : Option String :=
  let relative := relativePath name Backend.bytecode.extension
  ((env.classpath ++ env.loadPath).map (join · relative)).find? disk.isFile

/-- The class file of a class, if a directory has one. -/
def classFile? (env : Environment) (disk : Disk) (name : String) :
    Except LoadFault (Option ClassFile) :=
  match env.locate disk name with
  | none => .ok none
  | some path =>
    match disk.readFile path with
    | .error cause => .error (.unreadable path cause)
    | .ok bytes =>
      match ClassFile.ofPayload bytes with
      | .error cause => .error (.malformed name cause)
      | .ok file =>
        if file.name = name then .ok (some file) else .error (.nameMismatch name file.name)

/-- What typing knows of classes outside the batch; a payload that cannot be read counts as not
there. -/
def signatures (env : Environment) (disk : Disk) : Externals := fun name =>
  match env.native? name with
  | some cls => some cls.signature
  | none =>
    match env.classFile? disk name with
    | .ok file => file.map ClassFile.signature
    | .error _ => none

/-- The unit of a class outside the batch, not linked yet; the extensions that its payload names are
enabled on the way. -/
def resolve (disk : Disk) (env : Environment) (name : String) :
    Environment × Except LoadFault LoadedUnit :=
  match env.native? name with
  | some cls => (env, .ok (.native cls))
  | none =>
    match env.classFile? disk name with
    | .error fault => (env, .error fault)
    | .ok none => (env, .error (.notFound name))
    | .ok (some file) =>
      match env.enableAll file.extensions with
      | (env, .ok ()) => (env, .ok (.compiled file))
      | (env, .error fault) => (env, .error fault)

end Environment

end StackScript.Loading
