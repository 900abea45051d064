import StackScript.Proofs.FaultPlaces
import StackScript.Proofs.WrittenTrees
import StackScript.Proofs.WrittenTypes

/-!
# Texts of types

A text and the type that is read from it say the same. Taking the brackets off a text loses nothing
of it (`Ty.splitText_joins`), so the type that is read is written as the text that it was read from,
and a text is read as a type exactly if it is the written form of that type
(`Ty.parse?_eq_some_iff`). An annotation keeps the name and the number of brackets in the place of
its text; it has the text that stands at its place in the unit, and means the type that is read from
there (`type_texts_faithful`).
-/

namespace StackScript

open StackScript.Syntax

/-! ## Written forms -/

namespace Ty

/-- The pairs of brackets that are counted, and what is left, make up the text. -/
theorem stripBrackets_joins (cs : List Char) :
    (bracketPairs (stripBrackets cs).1).reverse ++ (stripBrackets cs).2 = cs := by
  fun_induction stripBrackets cs with
  | case1 rest ih =>
    rw [reverse_bracketPairs_succ, List.cons_append, List.cons_append, ih]
  | case2 rest => rfl

/-- The base name and the brackets make up the text. -/
theorem splitText_joins (cs : List Char) :
    (splitText cs).1.toList ++ bracketPairs (splitText cs).2 = cs := by
  have h := congrArg List.reverse (stripBrackets_joins cs.reverse)
  rw [List.reverse_append, List.reverse_reverse, List.reverse_reverse] at h
  rwa [splitText, String.toList_ofList]

/-- An array type is spelt as its base with one pair of brackets for each dimension. -/
theorem text_arrays (base : Ty) (dims : Nat) :
    (base.arrays dims).text.toList = base.text.toList ++ bracketPairs dims := by
  induction dims with
  | zero => exact (List.append_nil _).symm
  | succ dims ih =>
    rw [arrays, text, String.toList_append, ih, bracketPairs_succ, List.append_assoc]
    rfl

/-- A type that is put together from a base name and a number of dimensions is written as they
are. -/
theorem text_of_ofParts? {base : String} {dims : Nat} {t : Ty} (h : ofParts? base dims = some t) :
    t.text.toList = base.toList ++ bracketPairs dims := by
  unfold ofParts? at h
  split at h
  · rename_i hbase
    cases h
    rw [hbase]
    exact text_arrays int dims
  split at h
  · rename_i hbase
    cases h
    rw [hbase]
    exact text_arrays boolean dims
  split at h
  · rename_i hbase
    cases h
    rw [hbase]
    exact text_arrays string dims
  split at h
  · rename_i hbase
    obtain ⟨rfl, rfl⟩ := hbase
    cases h
    rfl
  · cases h

/-- **A text is read as a type exactly if it is the written form of that type**, and the type has
one. -/
theorem parse?_eq_some_iff {written : String} {t : Ty} :
    parse? written = some t ↔ t.isWritable = true ∧ t.text = written := by
  constructor
  · intro h
    refine ⟨isWritable_of_ofParts? h, String.ext ?_⟩
    rw [text_of_ofParts? h]
    exact splitText_joins written.toList
  · rintro ⟨hwritable, rfl⟩
    exact parse?_text_of_isWritable hwritable

end Ty

namespace Syntax

open StackScript.Grammar StackScript.Source StackScript.Text

/-! ## Annotations -/

/-- The types that the method has written in its header. -/
def Method.annotations (m : Method) : List TypeRef := m.params.map (·.type) ++ m.ret.toList

mutual

/-- The types that are written in the methods of the class, and of the classes in it. -/
def ClassDef.annotations : ClassDef → List TypeRef
  | .mk _ members _ _ => memberAnnotations members

/-- The types that are written in the members. -/
def memberAnnotations : List Member → List TypeRef
  | [] => []
  | .method m :: members => m.annotations ++ memberAnnotations members
  | .nested c :: members => c.annotations ++ memberAnnotations members

end

/-- The types that are written in the class or method. -/
def Item.annotations : Item → List TypeRef
  | .cls c => c.annotations
  | .method m => m.annotations
  | .stmt _ => []

/-- The types that are written in the unit. -/
def Program.annotations (program : Program) : List TypeRef :=
  program.items.flatMap Item.annotations

/-! ## Texts of annotations -/

/-- A type reference is spelt as its node. -/
theorem text_buildTypeRef (node : Node) : (buildTypeRef node).text.toList = node.text := by
  rw [TypeRef.toList_text]
  exact Ty.splitText_joins node.text

/-- An annotation means the type that is read from the text of its node. -/
theorem ty?_buildTypeRef (node : Node) :
    (buildTypeRef node).ty? = Ty.parse? (buildTypeRef node).text := by
  rw [Ty.parse?, text_buildTypeRef]
  rfl

/-- The annotation has the text that stands at its place, and means the type that is read from
there. -/
def TypeRef.SpeltIn (text : List Char) (ref : TypeRef) : Prop :=
  (∃ before after, text = before ++ ref.text.toList ++ after ∧
    ref.span = ⟨Mark.first.after before, Mark.first.after (before ++ ref.text.toList)⟩) ∧
  ref.ty? = Ty.parse? ref.text

/-- A type reference is spelt in the text where its node lies. -/
theorem speltIn_buildTypeRef {text : List Char} {node : Node} (h : node.LiesIn text) :
    (buildTypeRef node).SpeltIn text := by
  refine ⟨?_, ty?_buildTypeRef node⟩
  rw [text_buildTypeRef]
  -- the node covers what was passed over between its two places
  obtain ⟨rule, ⟨rest, mark⟩, stop, parts⟩ := node
  obtain ⟨⟨before, -, htext, hstart⟩, after, written, -, hrest, hstop⟩ := h
  have hwritten : (ParseTree.node rule ⟨rest, mark⟩ stop parts).text = written := by
    have hcovers : Covers (· = written) ⟨rest, mark⟩ ⟨after, stop⟩ := ⟨written, rfl, hrest, hstop⟩
    exact hcovers.of_textTo
  rw [hwritten]
  refine ⟨before, after, ?_, ?_⟩
  · rw [List.append_assoc, ← hrest]
    exact htext
  · have hstart : mark = Mark.first.after before := hstart
    have hstop : stop = mark.after written := hstop
    show Span.mk mark stop = _
    rw [hstop, Mark.after_append, hstart]

/-! ## Building -/

section Building

variable {P : TypeRef → Prop}

/-- Whatever node of the tree an annotation is built from, it has the property. -/
def Annotates (P : TypeRef → Prop) (tree : Node) : Prop :=
  ∀ inner, tree.Has inner → P (buildTypeRef inner)

theorem Annotates.part {tree part : Node} (h : Annotates P tree) (hpart : part ∈ tree.parts) :
    Annotates P part := by
  obtain ⟨rule, start, stop, parts⟩ := tree
  exact fun inner hinner => h inner (.part hpart hinner)

theorem annotates_buildParam {node : Node} (h : Annotates P node) :
    Makes (fun param => P param.type) (buildParam node) := by
  unfold buildParam
  split
  · rename_i name type hparts
    have htype : type ∈ node.parts := by
      rw [hparts]
      exact List.mem_cons_of_mem _ List.mem_cons_self
    exact .value (h.part htype type .self)
  · exact .error

theorem annotates_buildParams {nodes : List Node} (h : ∀ node ∈ nodes, Annotates P node) :
    Makes (fun params => ∀ ref ∈ params.map Param.type, P ref) (nodes.mapM buildParam) := by
  induction nodes with
  | nil => exact .value (List.forall_mem_nil _)
  | cons node rest ih =>
    obtain ⟨hnode, hrest⟩ := List.forall_mem_cons.mp h
    rw [List.mapM_cons]
    exact (annotates_buildParam hnode).bind fun param hparam =>
      (ih hrest).bind fun params hparams => .value (List.forall_mem_cons.mpr ⟨hparam, hparams⟩)

/-- The annotations of the parts of a method met so far. -/
def MethodParts.annotations (made : MethodParts) : List TypeRef :=
  made.params.map (·.type) ++ made.ret.toList

/-- One more part of a method adds the annotations in it, and no others. -/
theorem annotates_add {part : Node} (h : Annotates P part) {made : MethodParts}
    (hmade : ∀ ref ∈ made.annotations, P ref) :
    Makes (fun after => ∀ ref ∈ after.annotations, P ref) (made.add part) := by
  obtain ⟨hparams, hret⟩ := List.forall_mem_append.mp hmade
  unfold MethodParts.add
  split
  · exact .value hmade
  · exact .value hmade
  · exact (annotates_buildParams fun node hnode => h.part hnode).bind fun params hparams =>
      .value (List.forall_mem_append.mpr ⟨hparams, hret⟩)
  · split
    · rename_i type rest hparts
      have htype : type ∈ part.parts := by
        rw [hparts]
        exact List.mem_cons_self
      exact .value (List.forall_mem_append.mpr
        ⟨hparams, List.forall_mem_singleton.mpr (h.part htype type .self)⟩)
    · exact .error
  · exact Makes.trivial.bind fun _ _ => .value hmade
  · exact .error

theorem annotates_foldlM_add {parts : List Node} (h : ∀ part ∈ parts, Annotates P part)
    {made : MethodParts} (hmade : ∀ ref ∈ made.annotations, P ref) :
    Makes (fun after => ∀ ref ∈ after.annotations, P ref) (parts.foldlM MethodParts.add made) := by
  induction parts generalizing made with
  | nil => exact .value hmade
  | cons part rest ih =>
    obtain ⟨hpart, hrest⟩ := List.forall_mem_cons.mp h
    rw [List.foldlM_cons]
    exact (annotates_add hpart hmade).bind fun after hafter => ih hrest hafter

theorem annotates_buildMethod {tree : Node} (h : Annotates P tree) :
    Makes (fun m => ∀ ref ∈ m.annotations, P ref) (buildMethod tree) := by
  have hnone : ∀ ref ∈ ({} : MethodParts).annotations, P ref := List.forall_mem_nil _
  refine (annotates_foldlM_add (fun _ hpart => h.part hpart) hnone).bind fun made hmade => ?_
  split
  · exact .value hmade
  · exact .error

theorem annotates_buildMembers {nodes : List Node}
    (hclass : ∀ node ∈ nodes, Makes (fun c => ∀ ref ∈ c.annotations, P ref) (buildClass node))
    (h : ∀ node ∈ nodes, Annotates P node) :
    Makes (fun members => ∀ ref ∈ memberAnnotations members, P ref) (buildMembers nodes) := by
  induction nodes with
  | nil =>
    rw [buildMembers]
    exact .value (List.forall_mem_nil _)
  | cons node rest ih =>
    obtain ⟨hnodeClass, hrestClass⟩ := List.forall_mem_cons.mp hclass
    obtain ⟨hnode, hrest⟩ := List.forall_mem_cons.mp h
    have hmembers := ih hrestClass hrest
    unfold buildMembers
    split
    · cases ‹_ = []›
    · rename_i heq
      cases heq
      exact hnodeClass.bind fun nested hnested => hmembers.bind fun members hmembers =>
        .value (List.forall_mem_append.mpr ⟨hnested, hmembers⟩)
    · rename_i heq
      cases heq
      exact (annotates_buildMethod hnode).bind fun method hmethod =>
        hmembers.bind fun members hmembers =>
          .value (List.forall_mem_append.mpr ⟨hmethod, hmembers⟩)

/-- The annotations of a class are those that its nodes have. -/
theorem annotates_buildClass {tree : Node} (hstems : Stems grammar tree) :
    Annotates P tree → Makes (fun c => ∀ ref ∈ c.annotations, P ref) (buildClass tree) := by
  refine hstems.induction (P := fun tree => Annotates P tree →
    Makes (fun c => ∀ ref ∈ c.annotations, P ref) (buildClass tree)) ?_
  intro tree hstems ih h
  unfold buildClass
  split
  · rename_i start stop name members
    have hmember : ∀ node ∈ members, Annotates P node := fun node hnode =>
      h.part (List.mem_cons_of_mem _ hnode)
    exact (annotates_buildMembers (fun node hnode =>
      ih node (List.mem_cons_of_mem _ hnode) node .self (hmember node hnode)) hmember).bind
        fun members hmembers => .value hmembers
  · exact .error

theorem annotates_buildItem {tree : Node} (hstems : Stems grammar tree) (h : Annotates P tree) :
    Makes (fun item => ∀ ref ∈ item.annotations, P ref) (buildItem tree) := by
  unfold buildItem
  split
  · exact (annotates_buildClass hstems h).bind fun c hc => .value hc
  · exact (annotates_buildMethod h).bind fun m hm => .value hm
  · exact Makes.trivial.bind fun _ _ => .value (List.forall_mem_nil _)

theorem annotates_buildParts {nodes : List Node} (hstems : ∀ node ∈ nodes, Stems grammar node)
    (h : ∀ node ∈ nodes, Annotates P node) :
    Makes (fun parts : Option Package × List Item =>
      ∀ ref ∈ parts.2.flatMap Item.annotations, P ref) (buildParts nodes) := by
  induction nodes with
  | nil => exact .value (List.forall_mem_nil _)
  | cons node rest ih =>
    obtain ⟨hnodeStems, hrestStems⟩ := List.forall_mem_cons.mp hstems
    obtain ⟨hnode, hrest⟩ := List.forall_mem_cons.mp h
    have hparts := ih hrestStems hrest
    rw [buildParts]
    split
    · exact Makes.trivial.bind fun _ _ => hparts.bind fun _ hitems => .value hitems
    · exact hparts
    · refine (annotates_buildItem hnodeStems hnode).bind fun item hitem =>
        hparts.bind fun parts hitems => .value ?_
      rw [List.flatMap_cons]
      exact List.forall_mem_append.mpr ⟨hitem, hitems⟩

end Building

/-- Every annotation of a unit has the text that stands at its place. -/
theorem speltIn_readProgram {source text : String} {program : Program}
    (h : readProgram source text = .ok program) :
    ∀ ref ∈ program.annotations, ref.SpeltIn text.toList := by
  simp only [readProgram, buildProgram, bind_eq_ok, pure_eq_ok] at h
  obtain ⟨node, hnode, parts, hparts, rfl⟩ := h
  have hstems : ∀ part ∈ node.parts, Stems grammar part := fun _ hpart =>
    (stems_readNode hnode).part hpart
  -- the node of an annotation lies in the text, like every node of the tree
  have hspelt : Annotates (TypeRef.SpeltIn text.toList) node := fun inner hinner =>
    speltIn_buildTypeRef (liesIn_readNode hnode hinner)
  exact annotates_buildParts hstems (fun _ hpart => hspelt.part hpart) parts hparts

/-- **The text of a type is as good as the type.** A text is read as a type exactly if it is the
written form of that type, and the type has no array of `void` in it. In a unit that was read, what
stands at the place of an annotation is the text of the annotation, and the annotation means the
type that is read from this text, or none if no type is read from it. -/
theorem type_texts_faithful :
    (∀ (written : String) (t : Ty),
      Ty.parse? written = some t ↔ t.isWritable = true ∧ t.text = written) ∧
    ∀ (source text : String) (program : Program), readProgram source text = .ok program →
      ∀ ref ∈ program.annotations, ref.SpeltIn text.toList :=
  ⟨fun _ _ => Ty.parse?_eq_some_iff, fun _ _ _ h => speltIn_readProgram h⟩

/-- A method with an annotation of two pairs of brackets, and one that means no type. -/
def gridText : String := "def grid(rows: String[][]): void[]\nend"

theorem type_texts_faithful_gridText : ∃ program, readProgram "unit" gridText = .ok program ∧
    (∃ ref ∈ program.annotations, ref.text = "String[][]" ∧ ref.SpeltIn gridText.toList ∧
      ref.ty? = some (.array (.array .string))) ∧
    ∃ ref ∈ program.annotations, ref.text = "void[]" ∧ ref.SpeltIn gridText.toList ∧
      ref.ty? = none := by
  have hread : (readProgram "unit" gridText).toOption.map
      (·.annotations.map fun ref => (ref.text, ref.ty?)) =
        some [("String[][]", some (.array (.array .string))), ("void[]", none)] := by
    decide +kernel
  cases hprogram : readProgram "unit" gridText with
  | error fault =>
    rw [hprogram] at hread
    cases hread
  | ok program =>
    rw [hprogram] at hread
    have hspelt := type_texts_faithful.2 _ _ _ hprogram
    have hfound : ∀ {written : String} {type : Option Ty},
        (written, type) ∈ program.annotations.map (fun ref => (ref.text, ref.ty?)) →
          ∃ ref ∈ program.annotations, ref.text = written ∧ ref.SpeltIn gridText.toList ∧
            ref.ty? = type := by
      intro written type hmem
      obtain ⟨ref, href, heq⟩ := List.mem_map.mp hmem
      cases heq
      exact ⟨ref, href, rfl, hspelt ref href, rfl⟩
    have hrefs : program.annotations.map (fun ref => (ref.text, ref.ty?)) = _ :=
      Option.some.inj hread
    rw [hrefs] at hfound
    exact ⟨program, rfl, hfound List.mem_cons_self,
      hfound (List.mem_cons_of_mem _ List.mem_cons_self)⟩

end Syntax

end StackScript
