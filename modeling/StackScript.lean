import StackScript.Main
import StackScript.Proofs.Soundness
import StackScript.Syntax.Edit
import StackScript.Proofs.PayloadForms
import StackScript.Proofs.Courses
import StackScript.Proofs.Caching
import StackScript.Proofs.LiveLinks
import StackScript.Proofs.Headers
import StackScript.Proofs.Refining
import StackScript.Proofs.RefiningBodies
import StackScript.Proofs.Confluence
import StackScript.Proofs.Reading
import StackScript.Proofs.PlainNames
import StackScript.Proofs.Reordering
import StackScript.Proofs.UnitOrder
import StackScript.Proofs.OutsideClasses
import StackScript.Proofs.Barriers
import StackScript.Proofs.Telling
import StackScript.Proofs.StackDepths
import StackScript.Proofs.StackDiscipline
import StackScript.Proofs.StackEffects
import StackScript.Proofs.PackageNames
import StackScript.Proofs.Paths
import StackScript.Proofs.ClassPaths
import StackScript.Proofs.Disks
import StackScript.Proofs.Directories
import StackScript.Proofs.Destinations
import StackScript.Proofs.Filling
import StackScript.Proofs.WritingBack
import StackScript.Proofs.ControlFlow
import StackScript.Proofs.Confinement
import StackScript.Proofs.Resolving
import StackScript.Proofs.ScopeWalks
import StackScript.Proofs.Building
import StackScript.Proofs.Outlines
import StackScript.Proofs.Spans
import StackScript.Proofs.Grouping
import StackScript.Proofs.Relabelling
import StackScript.Proofs.Retyping
import StackScript.Proofs.RetypingBodies
import StackScript.Proofs.Annotations
import StackScript.Proofs.InPlace
import StackScript.Proofs.Keeping
import StackScript.Proofs.KeptClasses
import StackScript.Proofs.KeptInference
import StackScript.Proofs.Visiting
import StackScript.Proofs.OnlyAnnotations
import StackScript.Proofs.SlotNumbers
import StackScript.Proofs.Answers
import StackScript.Proofs.LineEnds
import StackScript.Proofs.InStep
import StackScript.Proofs.SamePlaces
import StackScript.Proofs.LineEndings
import StackScript.Proofs.ReferenceTables
import StackScript.Proofs.LineLookup
import StackScript.Proofs.DepthFirst
import StackScript.Proofs.LoadingOrder
import StackScript.Proofs.LoadingDepth
import StackScript.Proofs.Completeness
import StackScript.Proofs.FailedResolving
import StackScript.Proofs.AnyPayload
import StackScript.Proofs.Listings
import StackScript.Proofs.Narrowing
import StackScript.Proofs.ScriptClasses
import StackScript.Proofs.Carets
import StackScript.Proofs.Entries
import StackScript.Proofs.Expanding
import StackScript.Proofs.Powers
import StackScript.Proofs.Trimming
import StackScript.Proofs.Numerals
import StackScript.Proofs.Abreast
import StackScript.Proofs.FaultPlaces
import StackScript.Proofs.BlankEnds
import StackScript.Proofs.TrailingBlanks
import StackScript.Proofs.QuotedTexts
import StackScript.Proofs.NestedLists
import StackScript.Proofs.WrittenBodies
import StackScript.Proofs.WrittenTrees
import StackScript.Proofs.DumpForms
import StackScript.Proofs.Dumps
import StackScript.Proofs.TypeTexts
