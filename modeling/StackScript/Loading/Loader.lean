import StackScript.Loading.Environment

/-!
# The loader

Turns class names into loaded units with all their links. A unit is put into the cache before its
references are linked, so that classes which call each other find each other there. The cache only
grows; what is in it under a name stays there, also when linking it failed.
-/

namespace StackScript.Loading

open StackScript.Code StackScript.Files StackScript.Machine

/-! ## Batches of products -/

/-- Generated classes by name, in the order in which they came. -/
abbrev Batch := List Product

namespace Batch

/-- The product with the given class name. -/
def get? (batch : Batch) (name : String) : Option Product := batch.find? (·.name = name)

/-- The batch has a class of the given name. -/
def has (batch : Batch) (name : String) : Bool := (batch.get? name).isSome

/-- Puts a product in the place of the one with its name, or at the end. -/
def put (product : Product) : Batch → Batch
  | [] => [product]
  | p :: rest => if p.name = product.name then product :: rest else p :: put product rest

/-- The batch of products that came in order. -/
def ofList (products : List Product) : Batch :=
  products.foldl (fun batch product => put product batch) []

end Batch

/-! ## The cache -/

/-- A source of units for names that a batch does not have. It may change when it is asked. -/
abbrev Ambient (σ : Type) := σ → String → σ × Except LoadFault LoadedUnit

/-- A batch with the units that were loaded from it and from around it. -/
structure Loader (σ : Type) where
  batch : Batch
  /-- The state of the source of all other units. -/
  ambient : σ
  /-- The loaded units; the number of a unit is the position of its name in `names`. -/
  pool : Pool := {}
  /-- The names that were resolved, in the order in which they first were. -/
  names : List String := []

namespace Loader

variable {σ : Type}

/-- The number of the unit that is cached under a name. -/
def idOf? (loader : Loader σ) (name : String) : Option UnitId := loader.names.idxOf? name

/-- The unit that is cached under a name. -/
def cached? (loader : Loader σ) (name : String) : Option LoadedUnit :=
  (loader.idOf? name).bind loader.pool.unit?

/-- Makes the unit of a name that is not cached: from the batch, or else from around it. -/
def materialise (source : Ambient σ) (loader : Loader σ) (name : String) :
    Loader σ × Except LoadFault LoadedUnit :=
  match loader.batch.get? name with
  | some product =>
    match ClassFile.ofPayload product.bytes with
    | .ok file => (loader, .ok (.compiled file))
    | .error cause => (loader, .error (.malformed name cause))
  | none =>
    let (ambient, found) := source loader.ambient name
    ({ loader with ambient }, found)

/-- Puts a unit into the cache under a name. -/
def insert (loader : Loader σ) (name : String) (unit : LoadedUnit) : Loader σ :=
  { loader with pool := loader.pool.add unit, names := loader.names ++ [name] }

/-- Links a name to a unit inside a cached unit. -/
def link (loader : Loader σ) (inside : UnitId) (name : String) (target : UnitId) : Loader σ :=
  { loader with pool := loader.pool.link inside name target }

/-! ## Resolving -/

/-- A loader after a name was resolved, and the number of its unit; nothing if the steps ran out. -/
abbrev Resolution (σ : Type) := Option (Loader σ × Except LoadFault UnitId)

/-- Links the references of a unit in order, up to the first that does not resolve. -/
def linkAll (resolveOne : Loader σ → String → Resolution σ) (id : UnitId) :
    List String → Loader σ → Resolution σ
  | [], loader => some (loader, .ok id)
  | reference :: references, loader =>
    match resolveOne loader reference with
    | none => none
    | some (loader, .error fault) => some (loader, .error fault)
    | some (loader, .ok target) =>
      linkAll resolveOne id references (loader.link id reference target)

/-- Resolves a name, with at most `fuel` units being linked inside each other. -/
def resolveFrom (source : Ambient σ) : Nat → Loader σ → String → Resolution σ
  | 0, _, _ => none
  | fuel + 1, loader, name =>
    match loader.idOf? name with
    | some id => some (loader, .ok id)
    | none =>
      match loader.materialise source name with
      | (loader, .error fault) => some (loader, .error fault)
      | (loader, .ok unit) =>
        linkAll (resolveFrom source fuel) loader.pool.nextId unit.references
          (loader.insert name unit)

/-- Resolves a name, with at most `depth` units being linked inside each other. -/
def resolveWithin (source : Ambient σ) (depth : Nat) (loader : Loader σ) (name : String) :
    Loader σ × Except LoadFault UnitId :=
  (loader.resolveFrom source depth name).getD (loader, .error (.notFound name))

/-- Resolves names in order, up to the first that does not resolve. -/
def resolveAll (resolve : Loader σ → String → Loader σ × Except LoadFault UnitId) :
    Loader σ → List String → Loader σ × Except LoadFault Unit
  | loader, [] => (loader, .ok ())
  | loader, name :: names =>
    match resolve loader name with
    | (loader, .error fault) => (loader, .error fault)
    | (loader, .ok _) => resolveAll resolve loader names

end Loader

/-! ## Loading from an environment -/

/-- A loader that takes all other units from an environment. -/
abbrev BatchLoader := Loader Environment

namespace BatchLoader

/-- A loader for a batch, with nothing loaded yet. -/
def start (batch : Batch) (env : Environment) : BatchLoader := { batch, ambient := env }

/-- One more than the number of units that there can be: every unit being linked is a class of the
batch, a native class, or one with a payload file of its own. -/
def depthBound (disk : Disk) (loader : BatchLoader) : Nat :=
  loader.batch.length + disk.root.fileCount + 5

/-- Resolves a name. -/
def resolve (disk : Disk) (loader : BatchLoader) (name : String) :
    BatchLoader × Except LoadFault UnitId :=
  loader.resolveWithin (Environment.resolve disk) (depthBound disk loader) name

end BatchLoader

end StackScript.Loading
