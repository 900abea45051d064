import StackScript.Files.Path
import StackScript.Syntax.Tree

/-!
# Script classes

A unit may hold methods and statements outside any class. `Program.gather` moves them into the
unit's script class: the methods become static, and the statements become the body of its `main`.
The class is named after the unit, and when the unit defines a class of that name itself, that
class takes them in.
-/

namespace StackScript.Syntax

open StackScript.Source StackScript.Text

/-- The name of the units that inline scripts make. -/
def inlineName : String := "DashE"

/-- A part of a unit's name with its first letter in upper case. -/
def capitalize : List Char → List Char
  | [] => []
  | c :: rest => c.toUpper :: rest

/-- The name of a unit's script class: the letters and digits of its file stem, each run of them
capitalised; inline scripts keep their name. -/
def scriptClassName (source : String) : String :=
  if source = inlineName then inlineName
  else
    let stem := (Files.stem? source).getD source
    let parts := (pieces (!Char.isAlphanum ·) stem.toList).filter (!List.isEmpty ·)
    match parts.flatMap capitalize with
    | [] => "Script"
    | name => String.ofList name

/-- The span that covers all of the given ones, if there are any. -/
def mergeAll : List Span → Option Span
  | [] => none
  | span :: spans => some (spans.foldl Span.merge span)

/-- The span of the item, unless it is a class. -/
def Item.looseSpan? : Item → Option Span
  | .cls _ => none
  | .method m => some m.span
  | .stmt s => some s.span

/-- The method, if the item is one, made static. -/
def Item.looseMethod? : Item → Option Member
  | .method m => some (.method { m with isStatic := true })
  | .cls _ | .stmt _ => none

/-- The statement, if the item is one. -/
def Item.stmt? : Item → Option Stmt
  | .stmt s => some s
  | .cls _ | .method _ => none

/-- The `main` method that runs loose statements, everything but its body placed at `span`. -/
def mainMethod (stmts : List Stmt) (span : Span) : Method where
  name := ⟨"main", span⟩
  isStatic := true
  params := [⟨⟨"args", span⟩, ⟨"String", 1, span⟩, span⟩]
  ret := some ⟨"void", 0, span⟩
  body := .mk stmts ((mergeAll (stmts.map Stmt.span)).getD span)
  span := span

/-- The class with more members at its end. -/
def ClassDef.extend (c : ClassDef) (members : List Member) : ClassDef :=
  .mk c.name (c.members ++ members) c.synthetic c.span

/-- Adds members to the first class of the given name, if there is one. -/
def extendClass? (name : String) (members : List Member) : List ClassDef → Option (List ClassDef)
  | [] => none
  | c :: rest =>
    if c.name.name = name then some (c.extend members :: rest)
    else (extendClass? name members rest).map (c :: ·)

/-- The members that a unit's loose code makes, placed at `span`. -/
def scriptMembers (items : List Item) (span : Span) : List Member :=
  let stmts := items.filterMap Item.stmt?
  items.filterMap Item.looseMethod? ++
    (if stmts.isEmpty then [] else [.method (mainMethod stmts span)])

/-- The classes of a unit, its loose code gathered into the script class. -/
def gatherItems (name : String) (items : List Item) : List ClassDef :=
  let classes := items.filterMap Item.class?
  match mergeAll (items.filterMap Item.looseSpan?) with
  | none => classes
  | some span =>
    let members := scriptMembers items span
    match extendClass? name members classes with
    | some extended => extended
    | none => .mk ⟨name, span⟩ members true span :: classes

/-- The unit with its loose code gathered into its script class. -/
def Program.gather (program : Program) : Program :=
  { program with items := (gatherItems (scriptClassName program.source) program.items).map .cls }

end StackScript.Syntax
