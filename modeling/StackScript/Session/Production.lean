import StackScript.Code.Generate
import StackScript.Session.Report
import StackScript.Session.Settings
import StackScript.Session.Sources
import StackScript.Syntax.Sexpr
import StackScript.Syntax.Unit
import StackScript.Typing.Batch

/-!
# From sources to products

All units are read before any is typed, the batch is typed as a whole before any code is generated,
and classes are handed to a sink one by one as they are generated. Each phase ends the production at
its first failure, and what is told along the way is put together.
-/

namespace StackScript.Session

open StackScript.Code StackScript.Files StackScript.Loading StackScript.Syntax StackScript.Typing

/-- Something that is told: a diagnostic, or a text without one. -/
structure Remark where
  /-- As it is written. -/
  text : String
  diagnostic : Option Diagnostic := none

namespace Remark

/-- A text on lines of its own. -/
def note (text : String) : Remark := { text := text ++ "\n" }

/-- A diagnostic that is reported. -/
def ofDiagnostic (disk : Disk) (settings : Settings) (found : Diagnostic) : Remark where
  text := report disk settings.verbose found
  diagnostic := some found

end Remark

/-- What a phase told, and what came out of it. -/
structure Phase (α : Type) where
  remarks : List Remark
  result : Except SessionFault α

namespace Phase

variable {α β : Type}

/-- What was told, as it is written. -/
def report (phase : Phase α) : String := String.join (phase.remarks.map Remark.text)

/-- The diagnostics that were reported, in order. -/
def diagnostics (phase : Phase α) : List Diagnostic := phase.remarks.filterMap Remark.diagnostic

/-- A result with nothing told. -/
def quiet (result : Except SessionFault α) : Phase α := ⟨[], result⟩

/-- A phase followed by another one, if it did not fail. -/
def andThen (first : Phase α) (next : α → Phase β) : Phase β :=
  match first.result with
  | .error fault => ⟨first.remarks, .error fault⟩
  | .ok a => ⟨first.remarks ++ (next a).remarks, (next a).result⟩

end Phase

/-! ## Reading -/

/-- Reads one unit. -/
def readSource (disk : Disk) (settings : Settings) (unit : SourceUnit) : Phase Program :=
  match unit.read disk with
  | .error fault => .quiet (.error fault)
  | .ok text =>
    match readUnit settings.explicitPackages unit.name text with
    | .ok program => .quiet (.ok program)
    | .error fault =>
      ⟨[.ofDiagnostic disk settings (.ofUnitFault unit.name fault)], .error (.unreadable unit.name)⟩

/-- Reads units in order. -/
def readSources (disk : Disk) (settings : Settings) : List SourceUnit → Phase (List Program)
  | [] => .quiet (.ok [])
  | unit :: units =>
    (readSource disk settings unit).andThen fun program =>
      (readSources disk settings units).andThen fun batch => .quiet (.ok (program :: batch))

/-! ## Typing -/

/-- Types a batch; with verbose settings the typed trees are told. -/
def typeBatch (disk : Disk) (settings : Settings) (env : Environment) (batch : List Program) :
    Phase (List Program) :=
  let done := infer (env.signatures disk) batch
  let trees := if settings.verbose then done.batch.map (Remark.note ·.sexpr) else []
  let found := done.diagnostics.map fun d => Remark.ofDiagnostic disk settings (.ofTypeDiagnostic d)
  ⟨trees ++ found,
    if done.diagnostics.isEmpty then .ok done.batch
    else .error (.illTyped done.diagnostics.length)⟩

/-! ## Generating -/

/-- Takes generated classes; it may refuse one, and may have changed all the same. -/
abbrev Sink (σ : Type) := σ → Product → σ × Except SessionFault Unit

/-- A sink on the way through a production, and the names of the classes it was offered. -/
structure Delivery (σ : Type) where
  sink : σ
  seen : List String := []

/-- Hands products to a sink one by one; a second class of one name is not handed over. -/
def deliver {σ : Type} (accept : Sink σ) :
    Delivery σ → List Product → Delivery σ × Except SessionFault Unit
  | delivery, [] => (delivery, .ok ())
  | delivery, product :: products =>
    if delivery.seen.contains product.name then
      (delivery, .error (.duplicateClass product.name))
    else
      match accept delivery.sink product with
      | (sink, .error fault) => (⟨sink, product.name :: delivery.seen⟩, .error fault)
      | (sink, .ok ()) => deliver accept ⟨sink, product.name :: delivery.seen⟩ products

/-- Generates the classes of a unit and hands them over. -/
def handUnit {σ : Type} (settings : Settings) (accept : Sink σ) (delivery : Delivery σ)
    (program : Program) : Delivery σ × Except SessionFault Unit :=
  let made := generate settings.codeOptions program
  match deliver accept delivery made.made with
  | (delivery, .error fault) => (delivery, .error fault)
  | (delivery, .ok ()) =>
    match made.fault with
    | none => (delivery, .ok ())
    | some fault => (delivery, .error (.code fault))

/-- What is told of generating a unit: its fault, if that is one of the library itself. -/
def codeRemarks (disk : Disk) (settings : Settings) : Except SessionFault Unit → List Remark
  | .error (.code fault) =>
    (Diagnostic.ofCodeFault? fault).toList.map (.ofDiagnostic disk settings)
  | _ => []

/-- Generates the classes of a unit, hands them over, and tells what is to be told of it. -/
def deliverUnit {σ : Type} (disk : Disk) (settings : Settings) (accept : Sink σ)
    (delivery : Delivery σ) (program : Program) : Delivery σ × Phase Unit :=
  let (delivery, result) := handUnit settings accept delivery program
  (delivery, ⟨codeRemarks disk settings result, result⟩)

/-- Generates the classes of the units of a batch in order and hands them over. -/
def deliverBatch {σ : Type} (disk : Disk) (settings : Settings) (accept : Sink σ) :
    Delivery σ → List Program → Delivery σ × Phase Unit
  | delivery, [] => (delivery, .quiet (.ok ()))
  | delivery, program :: batch =>
    let (delivery, phase) := deliverUnit disk settings accept delivery program
    match phase.result with
    | .error _ => (delivery, phase)
    | .ok () =>
      let (delivery, rest) := deliverBatch disk settings accept delivery batch
      (delivery, phase.andThen fun _ => rest)

/-- A sink after a production, and what was told on the way to it. -/
def deliverTo {σ : Type} (disk : Disk) (settings : Settings) (accept : Sink σ) (sink : σ)
    (batch : Phase (List Program)) : σ × Phase Unit :=
  match batch.result with
  | .error fault => (sink, ⟨batch.remarks, .error fault⟩)
  | .ok programs =>
    let (delivery, phase) := deliverBatch disk settings accept { sink } programs
    (delivery.sink, batch.andThen fun _ => phase)

/-- The whole way from source units to a sink. -/
def produce {σ : Type} (disk : Disk) (settings : Settings) (env : Environment) (accept : Sink σ)
    (sink : σ) (units : List SourceUnit) : σ × Phase Unit :=
  deliverTo disk settings accept sink
    ((readSources disk settings units).andThen (typeBatch disk settings env))

/-! ## Sinks -/

/-- Keeps all products, in order. -/
def keep : Sink (List Product) := fun kept product => (kept ++ [product], .ok ())

/-- Writes each product to its path below a directory, making the directories it needs. -/
def writeBelow (destination : String) : Sink Disk := fun disk product =>
  let path := join destination product.path
  let upper := (parent? path).getD ""
  match disk.makeDirs upper with
  | .error cause => (disk, .error (.ofFile "create" upper cause))
  | .ok disk =>
    match disk.writeFile path product.bytes with
    | .error cause => (disk, .error (.ofFile "write" path cause))
    | .ok disk => (disk, .ok ())

end StackScript.Session
