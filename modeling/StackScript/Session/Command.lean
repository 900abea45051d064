import StackScript.Session.Arguments
import StackScript.Session.EntryPoint
import StackScript.Session.Production

/-!
# Commands

A whole run of the program as a function of the disk and the arguments: what it prints, what it
writes, and whether it succeeds.
-/

namespace StackScript.Session

open StackScript.Code StackScript.Files StackScript.Loading StackScript.Machine StackScript.Syntax

/-- What a run of the program leaves behind. -/
structure Outcome where
  /-- The disk after the run, with the working directory of the start. -/
  disk : Disk
  /-- What was printed. -/
  out : String := ""
  /-- What was told besides. -/
  err : String := ""
  fault : Option SessionFault := none

namespace Outcome

/-- The run succeeded. -/
def success (outcome : Outcome) : Bool := outcome.fault.isNone

/-- All that was told, the fault included unless it has been reported. -/
def told (outcome : Outcome) : String :=
  match outcome.fault with
  | some fault =>
    if fault.isReported then outcome.err else outcome.err ++ fault.notice.line ++ "\n"
  | none => outcome.err

/-- The outcome with more printed before it. -/
def after (outcome : Outcome) (out : String) : Outcome :=
  { outcome with out := out ++ outcome.out }

end Outcome

/-! ## Compiling and running -/

/-- What there is to do after the flags were applied and the entries were looked up. -/
structure Prepared where
  settings : Settings
  environment : Environment
  units : List SourceUnit

/-- The disk with the working directory that the flags ask for. -/
def enterWorkingDirectory (disk : Disk) (flags : Flags) : Except SessionFault Disk :=
  match flags.cd with
  | none => .ok disk
  | some dir => (disk.enter dir).mapError (.ofFile "change directory to" dir)

/-- The settings that flags make, the banner being printed if they ask for it. -/
def settingsOf (flags : Flags) : Except SessionFault Settings :=
  match ({} : Settings).apply flags with
  | (_, .error fault) => .error fault
  | (settings, .ok ()) => .ok { settings with bannerPrinted := flags.version }

/-- Looks up the entries; nothing is left to do when there are none and the banner was printed. -/
def prepare (disk : Disk) (settings : Settings) (entries : List String) :
    Except SessionFault (Option Prepared) := do
  let environment ← settings.environment
  let units ← expand disk entries
  if units.isEmpty then
    if settings.bannerPrinted then pure none else throw (.usage "No source files given")
  else pure (some ⟨settings, environment, units⟩)

/-- Carries out a command on its units, on a disk with the working directory that it asks for. -/
abbrev Work := Disk → Prepared → Outcome

/-- Prepares a command and carries it out. -/
def withPrepared (work : Work) (disk : Disk) (flags : Flags) (entries : List String) : Outcome :=
  match settingsOf flags with
  | .error fault => { disk, fault := some fault }
  | .ok settings =>
    let printed := if settings.bannerPrinted then banner ++ "\n" else ""
    match enterWorkingDirectory disk flags with
    | .error fault => { disk, out := printed, fault := some fault }
    | .ok inside =>
      match prepare inside settings entries with
      | .error fault => { disk, out := printed, fault := some fault }
      | .ok none => { disk, out := printed }
      | .ok (some prepared) =>
        let outcome := (work inside prepared).after printed
        { outcome with disk := { outcome.disk with here := disk.here } }

/-- The fault of a result, if it is one. -/
def faultOf {α : Type} : Except SessionFault α → Option SessionFault
  | .ok _ => none
  | .error fault => some fault

/-- Compiles units and writes their classes below the destination. -/
def compileUnits : Work := fun disk prepared =>
  let settings := prepared.settings
  let (written, phase) := produce disk settings prepared.environment
    (writeBelow settings.destination) disk prepared.units
  { disk := written, err := phase.report, fault := faultOf phase.result }

/-- Compiles units and starts their program, for at most `fuel` steps. -/
def runUnits (fuel : Nat) (args : List String) : Work := fun disk prepared =>
  let settings := prepared.settings
  if settings.backend = .bytecode then
    let (products, phase) := produce disk settings prepared.environment keep [] prepared.units
    match phase.result with
    | .error fault => { disk, err := phase.report, fault := some fault }
    | .ok () =>
      let loader := BatchLoader.start (.ofList products) prepared.environment
      let launched := launch disk settings loader fuel args
      { disk
        out := launched.out
        err := phase.report ++ launched.info
        fault := faultOf launched.result }
  else { disk, fault := some (.usage "the listing backend cannot be run") }

/-! ## Printing trees -/

/-- What printing the trees of files gives: what was printed and told, and how many files could not
be read as units. -/
structure Trees where
  out : String := ""
  err : String := ""
  failed : Nat := 0

/-- Prints the trees of files up to the first file that cannot be read at all. -/
def printTrees (disk : Disk) : Trees → List String → Trees × Except SessionFault Unit
  | trees, [] => (trees, .ok ())
  | trees, path :: paths =>
    match disk.readText path with
    | .error cause => (trees, .error (.ofFile "read" path cause))
    | .ok text =>
      match readUnit false path text with
      | .ok program =>
        printTrees disk { trees with out := trees.out ++ program.sexpr ++ "\n" } paths
      | .error fault =>
        printTrees disk
          { trees with err := trees.err ++ fault.notice.line ++ "\n", failed := trees.failed + 1 }
          paths

/-- Prints the trees of files. -/
def parseFiles (disk : Disk) (files : List String) : Outcome :=
  let (trees, result) := printTrees disk {} files
  let fault :=
    match result with
    | .error fault => some fault
    | .ok () =>
      if trees.failed = 0 then none
      else some (.usage (toString trees.failed ++ " file(s) failed to parse"))
  { disk, out := trees.out, err := trees.err, fault }

/-! ## All of it -/

/-- Carries out a request; a program that is started gets at most `fuel` steps. -/
def execute (fuel : Nat) (disk : Disk) : Request → Outcome
  | .compile flags entries => withPrepared compileUnits disk flags entries
  | .run flags entries args => withPrepared (runUnits fuel args) disk flags entries
  | .parse files => parseFiles disk files

/-! ## What a request reads -/

/-- The paths of units that entries stand for. -/
def entryPaths (entries : List String) : List String :=
  match entryUnits entries with
  | .error _ => []
  | .ok units => units.map (·.name)

/-- The paths that a request may read at or below, from its working directory. -/
def Request.paths : Request → List String
  | .compile flags entries | .run flags entries _ =>
    flags.classpath.flatMap (Text.piecesBy ':') ++ flags.loadPath ++ entryPaths entries
  | .parse files => files

/-- The directory that a request works in, if it is not the present one. -/
def Request.workingDirectory? : Request → Option String
  | .compile flags _ | .run flags _ _ => flags.cd
  | .parse _ => none

end StackScript.Session
