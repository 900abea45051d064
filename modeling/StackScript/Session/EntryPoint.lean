import StackScript.Loading.Loader
import StackScript.Machine.Step
import StackScript.Session.Settings

/-!
# Starting a program

All classes of a batch are loaded, and then the first class that a program can start with, in the
order of loading, is started with the arguments.
-/

namespace StackScript.Session

open StackScript.Files StackScript.Loading StackScript.Machine

/-- What became of starting a program. -/
inductive Launch where
  /-- The program that starts with a class ran to its end. -/
  | ran (cls : String)
  /-- There is no class that a program can start with. -/
  | noEntryPoint
  /-- The program was still at work after all the steps that it was given. -/
  | unfinished
  deriving DecidableEq, Repr

/-- What is told when there is nothing to start. -/
def noEntryPointNotice : String := "No main(String[]) method found in the compiled units\n"

/-- The loader after a start, what the program printed, what was told besides, and what became of
it. -/
structure Launched (σ : Type) where
  loader : Loader σ
  out : String := ""
  info : String := ""
  result : Except SessionFault Launch

section

variable {σ : Type}

/-- The first unit of the batch, in the order of loading, that a program can start with. -/
def entryUnit? (loader : Loader σ) : Option LoadedUnit :=
  ((loader.names.filter loader.batch.has).filterMap loader.cached?).find? (·.hasEntryPoint)

/-- Starts a unit with the arguments. -/
def start (loader : Loader σ) (fuel : Nat) (unit : LoadedUnit) (args : List String) : Launched σ :=
  match invoke loader.pool fuel unit "main" [.strings args] with
  | none => { loader, result := .ok .unfinished }
  | some ⟨.error fault, out⟩ => { loader, out, result := .error (.execution fault) }
  | some ⟨.ok _, out⟩ => { loader, out, result := .ok (.ran unit.name) }

/-- Loads the batch, each name by `resolve`, and starts its program, for at most `fuel` steps. -/
def launchBy (resolve : Loader σ → String → Loader σ × Except LoadFault UnitId)
    (settings : Settings) (loader : Loader σ) (fuel : Nat) (args : List String) : Launched σ :=
  match Loader.resolveAll resolve loader (loader.batch.map (·.name)) with
  | (loader, .error fault) => { loader, result := .error (.load fault) }
  | (loader, .ok ()) =>
    match entryUnit? loader with
    | some unit => start loader fuel unit args
    | none =>
      let info := if settings.bannerPrinted then "" else noEntryPointNotice
      { loader, info, result := .ok .noEntryPoint }

end

/-- Loads the batch from an environment and starts its program, for at most `fuel` steps. -/
def launch (disk : Disk) (settings : Settings) (loader : BatchLoader) (fuel : Nat)
    (args : List String) : Launched Environment :=
  launchBy (BatchLoader.resolve disk) settings loader fuel args

end StackScript.Session
