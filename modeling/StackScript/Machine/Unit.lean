import StackScript.Code.ClassFile
import StackScript.Machine.Native

/-!
# Loaded units

Classes ready to run, compiled or native. A unit has links from the names of the classes it calls
to the units they are; units are known by their number in a pool. A pool may have lost a unit: its
number is then known still, and every link to it is dead.
-/

namespace StackScript.Machine

open StackScript.Code

/-- The number of a unit in its pool. -/
abbrev UnitId := Nat

/-- What a unit consists of. -/
inductive UnitBody where
  | compiled (file : ClassFile)
  | native (cls : NativeClass)

/-- A loaded unit. -/
structure LoadedUnit where
  body : UnitBody
  /-- The units that class names mean, latest first. -/
  links : List (String × UnitId) := []

namespace LoadedUnit

/-- A unit from a class file, with no links yet. -/
def compiled (file : ClassFile) : LoadedUnit := { body := .compiled file }

/-- A unit from a native class. -/
def native (cls : NativeClass) : LoadedUnit := { body := .native cls }

/-- The qualified name of the class. -/
def name (unit : LoadedUnit) : String :=
  match unit.body with
  | .compiled file => file.name
  | .native cls => cls.name

/-- The unit is native. -/
def isNative (unit : LoadedUnit) : Bool :=
  match unit.body with
  | .compiled _ => false
  | .native _ => true

/-- The names of the classes that the unit calls. -/
def references (unit : LoadedUnit) : List String :=
  match unit.body with
  | .compiled file => file.references
  | .native _ => []

/-- The extensions that the unit was made with. -/
def extensions (unit : LoadedUnit) : List String :=
  match unit.body with
  | .compiled file => file.extensions
  | .native _ => []

/-- The signature of the class. -/
def signature (unit : LoadedUnit) : ClassSig :=
  match unit.body with
  | .compiled file => file.signature
  | .native cls => cls.signature

/-- A program can start with the unit. -/
def hasEntryPoint (unit : LoadedUnit) : Bool :=
  match unit.body with
  | .compiled file => file.entryPoint?.isSome
  | .native _ => false

/-- The unit with a name linked to a unit. -/
def link (unit : LoadedUnit) (name : String) (target : UnitId) : LoadedUnit :=
  { unit with links := (name, target) :: unit.links.filter (·.1 ≠ name) }

end LoadedUnit

/-- Loaded units by number; nothing stands for one that was lost. -/
structure Pool where
  units : Array (Option LoadedUnit) := #[]

namespace Pool

/-- The unit with a number. -/
def unit? (pool : Pool) (id : UnitId) : Option LoadedUnit := (pool.units[id]?).join

/-- The pool with one more unit, which gets the next number. -/
def add (pool : Pool) (unit : LoadedUnit) : Pool := ⟨pool.units.push (some unit)⟩

/-- The number that the next unit gets. -/
def nextId (pool : Pool) : UnitId := pool.units.size

/-- The pool with a name linked to a unit inside another one. -/
def link (pool : Pool) (inside : UnitId) (name : String) (target : UnitId) : Pool :=
  ⟨pool.units.modify inside (Option.map (·.link name target))⟩

/-- The pool without a unit. -/
def drop (pool : Pool) (id : UnitId) : Pool := ⟨pool.units.modify id fun _ => none⟩

/-- The unit that a class name is linked to inside a unit, unless it was lost. -/
def linked? (pool : Pool) (unit : LoadedUnit) (name : String) : Option LoadedUnit :=
  (unit.links.lookup name).bind pool.unit?

/-- Every class that the unit calls is linked. -/
def isLinked (pool : Pool) (unit : LoadedUnit) : Bool :=
  unit.references.all fun name => (pool.linked? unit name).isSome

end Pool

end StackScript.Machine
