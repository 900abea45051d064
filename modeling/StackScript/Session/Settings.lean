import StackScript.Loading.Environment
import StackScript.Session.Fault

/-!
# Settings

What the flags of a command set. Flags are applied one after another to settings that hold for the
whole command.
-/

namespace StackScript.Session

open StackScript.Code StackScript.Loading StackScript.Text

/-- The flags of a command as they were given. -/
structure Flags where
  /-- Lists of directories, with colons between them. -/
  classpath : List String := []
  /-- The directory to work in. -/
  cd : Option String := none
  dest : Option String := none
  explicitPackages : Bool := false
  backend : Option String := none
  target : Option String := none
  loadPath : List String := []
  plugins : List String := []
  verbose : Bool := false
  version : Bool := false
  retainExtensions : Bool := false
  deriving DecidableEq, Repr

/-- What holds for a whole command. -/
structure Settings where
  /-- The directory that generated classes are written to. -/
  destination : String := "."
  /-- Trees and traces are told too. -/
  verbose : Bool := false
  target : Target := .latest
  /-- The banner was printed. -/
  bannerPrinted : Bool := false
  /-- Generated classes name the enabled extensions. -/
  retainExtensions : Bool := false
  backend : Backend := .bytecode
  /-- Every unit has to declare its package. -/
  explicitPackages : Bool := false
  classpath : List String := []
  loadPath : List String := []
  /-- Names of the extensions to enable. -/
  extensions : List String := []
  deriving DecidableEq, Repr

/-- The name and version of the program with the target it generates for. -/
def banner : String := "Mirah v0.1.0 (target " ++ Target.latest.text ++ ")"

namespace Settings

/-- Sets the target with the given name; one that does not exist changes nothing. -/
def setTarget (settings : Settings) (name : String) : Settings :=
  { settings with target := (Target.parse? name).getD settings.target }

/-- Applies the flags that come before the backend. -/
def applyFirst (settings : Settings) (flags : Flags) : Settings :=
  { settings with
    classpath := settings.classpath ++ flags.classpath.flatMap (piecesBy ':')
    destination := flags.dest.getD settings.destination
    explicitPackages := settings.explicitPackages || flags.explicitPackages }

/-- Applies the flags that come after the backend. -/
def applyLast (settings : Settings) (flags : Flags) : Settings :=
  let targeted := flags.target.elim settings settings.setTarget
  { targeted with
    loadPath := settings.loadPath ++ flags.loadPath
    extensions := settings.extensions ++ flags.plugins
    verbose := settings.verbose || flags.verbose
    retainExtensions := settings.retainExtensions || flags.retainExtensions }

/-- Applies flags in order; a backend that does not exist ends this, and what was set before it
stays set. -/
def apply (settings : Settings) (flags : Flags) : Settings × Except SessionFault Unit :=
  let first := settings.applyFirst flags
  match flags.backend with
  | none => (first.applyLast flags, .ok ())
  | some name =>
    match Backend.parse? name with
    | some backend => ({ first with backend }.applyLast flags, .ok ())
    | none => (first, .error (.usage ("unknown backend " ++ name)))

/-- How classes are generated under the settings. -/
def codeOptions (settings : Settings) : Options where
  backend := settings.backend
  target := settings.target
  extensions := if settings.retainExtensions then settings.extensions else []

/-- The environment of the settings, their extensions enabled. -/
def environment (settings : Settings) : Except SessionFault Environment :=
  let bare : Environment := { classpath := settings.classpath, loadPath := settings.loadPath }
  match bare.enableAll settings.extensions with
  | (env, .ok ()) => .ok env
  | (_, .error fault) => .error (.load fault)

end Settings

end StackScript.Session
