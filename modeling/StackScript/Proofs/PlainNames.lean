import StackScript.Proofs.Basics
import StackScript.Proofs.Reading
import StackScript.Syntax.Unit

/-!
# Names of classes

The classes of every unit that is taken in have plain names, of letters, digits and underscores
(`plain_readUnit`): those that a text writes, since the grammar reads no other characters there, and
the script classes, which are named after the letters and digits of their units.
-/

namespace StackScript.Syntax

open StackScript.Grammar StackScript.Source StackScript.Text

/-! ## Plain names -/

/-- The name is made of letters, digits and underscores. -/
def PlainName (name : String) : Prop := ∀ c ∈ name.toList, isNameChar c = true

instance (name : String) : Decidable (PlainName name) :=
  List.decidableBAll (isNameChar · = true) name.toList

mutual

/-- The class, and all classes nested in it, have plain names. -/
def ClassDef.Plain : ClassDef → Prop
  | .mk name members _ _ => PlainName name.name ∧ PlainMembers members

/-- All classes among the members have plain names. -/
def PlainMembers : List Member → Prop
  | [] => True
  | .method _ :: rest => PlainMembers rest
  | .nested c :: rest => c.Plain ∧ PlainMembers rest

end

/-- All classes of the unit have plain names. -/
def Program.Plain (program : Program) : Prop := ∀ c ∈ program.classes, c.Plain

theorem PlainMembers.append {members more : List Member} (h : PlainMembers members)
    (hmore : PlainMembers more) : PlainMembers (members ++ more) := by
  induction members with
  | nil => exact hmore
  | cons member rest ih =>
    cases member with
    | method m => exact ih h
    | nested c => exact ⟨h.1, ih h.2⟩

/-! ## Names that a text writes -/

/-- A constant has none but name characters. -/
theorem within_constant : (grammar.production .constant).body.Within isNameChar := by
  have hupper : ∀ c : Char, c.isUpper = true → isNameChar c = true := by
    intro c hc
    show ((c.isUpper || c.isLower || c.isDigit) || decide (c = '_')) = true
    rw [hc]
    rfl
  exact ⟨hupper, trivial, fun _ hc => hc, trivial, fun _ hc => hc⟩

/-- A class name in a text is plain. -/
theorem plain_constant {start : Cursor} {stop : Mark} {parts : List Node}
    (h : Stems grammar (.node .constant start stop parts)) :
    PlainName (buildIdent (.node .constant start stop parts)).name := by
  cases h with
  | node hreads _ _ =>
    obtain ⟨-, hpasses⟩ := hreads.within within_constant
    intro c hc
    rw [buildIdent, String.toList_ofList] at hc
    exact (hpasses (by rintro ⟨⟩)).of_textTo c hc

/-- The first part of a class definition is the name of the class. -/
theorem name_of_classDef {start : Cursor} {stop : Mark} {name : Node} {members : List Node}
    (h : Stems grammar (.node .classDef start stop (name :: members))) :
    PlainName (buildIdent name).name := by
  have hname := h.part List.mem_cons_self
  cases h with
  | node hreads hleaves _ =>
    -- the word before the name leaves no node, and neither does the gap after it
    obtain ⟨_, _, _, hword, hrest, hparts⟩ := hreads.cat_inv
    obtain ⟨_, _, _, hgap, hrest', hparts'⟩ := hrest.cat_inv
    obtain ⟨_, _, _, hconstant, -, hparts''⟩ := hrest'.cat_inv
    obtain ⟨_, hnode⟩ := hconstant.call_inv hleaves
    have hnone := hword.silent ⟨trivial, trivial, fun _ _ => rfl⟩
    rw [hparts', hparts'', hnode, hnone, hgap.silent trivial] at hparts
    cases hparts
    exact plain_constant hname

theorem plain_buildClass (node : Node) : Stems grammar node → ∀ {c : ClassDef},
    buildClass node = .ok c → c.Plain := by
  refine buildClass.induct
    (fun node => Stems grammar node → ∀ {c : ClassDef}, buildClass node = .ok c → c.Plain)
    (fun nodes => (∀ node ∈ nodes, Stems grammar node) → ∀ {members : List Member},
      buildMembers nodes = .ok members → PlainMembers members) ?_ ?_ ?_ ?_ ?_ node
  · intro start stop name members ih hstems c h
    simp only [buildClass, bind_eq_ok, pure_eq_ok] at h
    obtain ⟨built, hbuilt, rfl⟩ := h
    refine ⟨name_of_classDef hstems, ih (fun part hpart => ?_) hbuilt⟩
    exact hstems.part (List.mem_cons_of_mem _ hpart)
  · intro node hother _ c h
    rw [buildClass] at h
    · cases h
    · exact hother
  · intro _ members h
    cases h
    trivial
  · intro start stop parts rest hclass hrest hstems members h
    simp only [buildMembers, bind_eq_ok, pure_eq_ok] at h
    obtain ⟨nested, hnested, more, hmore, rfl⟩ := h
    exact ⟨hclass (hstems _ List.mem_cons_self) hnested,
      hrest (fun node hnode => hstems node (List.mem_cons_of_mem _ hnode)) hmore⟩
  · intro node rest hother hrest hstems members h
    rw [buildMembers] at h
    · simp only [bind_eq_ok, pure_eq_ok] at h
      obtain ⟨method, -, more, hmore, rfl⟩ := h
      have hplain := hrest (fun node hnode => hstems node (List.mem_cons_of_mem _ hnode)) hmore
      exact hplain
    · exact hother

theorem plain_buildItem {node : Node} (hstems : Stems grammar node) {item : Item}
    (h : buildItem node = .ok item) : ∀ c ∈ item.class?, c.Plain := by
  unfold buildItem at h
  split at h
  · simp only [bind_eq_ok, pure_eq_ok] at h
    obtain ⟨c, hc, rfl⟩ := h
    rintro _ ⟨⟩
    exact plain_buildClass node hstems hc
  · simp only [bind_eq_ok, pure_eq_ok] at h
    obtain ⟨_, -, rfl⟩ := h
    rintro _ ⟨⟩
  · simp only [bind_eq_ok, pure_eq_ok] at h
    obtain ⟨_, -, rfl⟩ := h
    rintro _ ⟨⟩

theorem plain_buildParts {nodes : List Node} (hstems : ∀ node ∈ nodes, Stems grammar node)
    {package : Option Package} {items : List Item}
    (h : buildParts nodes = .ok (package, items)) : ∀ item ∈ items, ∀ c ∈ item.class?, c.Plain := by
  induction nodes generalizing package items with
  | nil =>
    cases h
    exact fun _ hitem => nomatch hitem
  | cons node rest ih =>
    have ih := fun {package items} => @ih (List.forall_mem_cons.mp hstems).2 package items
    simp only [buildParts] at h
    split at h
    · simp only [bind_eq_ok, pure_eq_ok] at h
      obtain ⟨_, -, ⟨_, more⟩, hmore, heq⟩ := h
      cases heq
      exact ih hmore
    · exact ih h
    · simp only [bind_eq_ok, pure_eq_ok] at h
      obtain ⟨item, hitem, ⟨_, more⟩, hmore, heq⟩ := h
      cases heq
      exact List.forall_mem_cons.mpr
        ⟨plain_buildItem (hstems _ List.mem_cons_self) hitem, ih hmore⟩

/-- What was read as a rule stems from it. -/
theorem stems_readNode {rule : Rule} {cs : List Char} {node : Node}
    (h : readNode rule cs = .ok node) : Stems grammar node := by
  unfold readNode parse at h
  split at h
  · rename_i hread
    cases h
    exact (reads_of_read _ hread).stems _ List.mem_cons_self
  · cases h

/-- The classes that a text writes have plain names. -/
theorem plain_readProgram {source text : String} {program : Program}
    (h : readProgram source text = .ok program) : program.Plain := by
  simp only [readProgram, buildProgram, bind_eq_ok, pure_eq_ok] at h
  obtain ⟨node, hnode, ⟨package, items⟩, hparts, rfl⟩ := h
  have hstems := stems_readNode hnode
  intro c hc
  obtain ⟨item, hitem, hc⟩ := List.mem_filterMap.mp hc
  exact plain_buildParts (fun _ hpart => hstems.part hpart) hparts item hitem c hc

/-! ## Script classes -/

/-- A small letter is 32 places behind its capital. -/
theorem val_toUpper {c : Char} (h : 'a'.val ≤ c.val ∧ c.val ≤ 'z'.val) :
    c.toUpper.val = c.val + 4294967264 := by
  unfold Char.toUpper
  rw [dif_pos h]
  rfl

theorem isAlphanum_toUpper {c : Char} (h : c.isAlphanum = true) : c.toUpper.isAlphanum = true := by
  by_cases hlower : 'a'.val ≤ c.val ∧ c.val ≤ 'z'.val
  · have hval := val_toUpper hlower
    have hupper : c.toUpper.isUpper = true := by
      unfold Char.isUpper
      rw [hval]
      obtain ⟨hle, hge⟩ := hlower
      rw [UInt32.le_iff_toNat_le] at hle hge
      have ha : ('a'.val).toNat = 97 := rfl
      have hz : ('z'.val).toNat = 122 := rfl
      have hA : ('A'.val).toNat = 65 := rfl
      have hZ : ('Z'.val).toNat = 90 := rfl
      -- the sum wraps around, and comes out 32 lower
      have hnat : (c.val + 4294967264).toNat = c.val.toNat - 32 := by
        rw [UInt32.toNat_add]
        have : (4294967264 : UInt32).toNat = 4294967264 := rfl
        omega
      simp only [ge_iff_le, UInt32.le_iff_toNat_le, hnat, decide_eq_true_eq]
      omega
    show (c.toUpper.isUpper || c.toUpper.isLower || c.toUpper.isDigit) = true
    rw [hupper]
    rfl
  · unfold Char.toUpper
    rw [dif_neg hlower]
    exact h

/-- No piece between separators has a separator in it. -/
theorem mem_piecesFrom {isSeparator : Char → Bool} {current cs piece : List Char}
    (hcurrent : ∀ c ∈ current, isSeparator c = false)
    (h : piece ∈ piecesFrom isSeparator current cs) : ∀ c ∈ piece, isSeparator c = false := by
  fun_induction piecesFrom isSeparator current cs with
  | case1 current =>
    rw [List.mem_singleton.mp h]
    exact fun c hc => hcurrent c (List.mem_reverse.mp hc)
  | case2 current c rest hsep ih =>
    rcases List.mem_cons.mp h with rfl | h
    · exact fun c hc => hcurrent c (List.mem_reverse.mp hc)
    · exact ih (fun _ hc => nomatch hc) h
  | case3 current c rest hsep ih =>
    refine ih (fun d hd => ?_) h
    rcases List.mem_cons.mp hd with rfl | hd
    · simpa using hsep
    · exact hcurrent d hd

/-- With its first letter capitalised a word is alphanumeric if it was. -/
theorem isAlphanum_capitalize {cs : List Char} (h : ∀ c ∈ cs, c.isAlphanum = true) :
    ∀ c ∈ capitalize cs, c.isAlphanum = true := by
  cases cs with
  | nil => exact h
  | cons first rest =>
    obtain ⟨hfirst, hrest⟩ := List.forall_mem_cons.mp h
    exact List.forall_mem_cons.mpr ⟨isAlphanum_toUpper hfirst, hrest⟩

/-- Script classes have plain names. -/
theorem plain_scriptClassName (source : String) : PlainName (scriptClassName source) := by
  unfold scriptClassName
  split
  · decide
  · simp only
    split
    · decide
    · intro c hc
      rw [String.toList_ofList] at hc
      obtain ⟨part, hpart, hc⟩ := List.mem_flatMap.mp hc
      -- a part is a stretch of the name of the unit between other characters
      have hpiece := mem_piecesFrom (List.forall_mem_nil _) (List.mem_filter.mp hpart).1
      have halphanum := isAlphanum_capitalize (fun d hd => by simpa using hpiece d hd) c hc
      simp [isNameChar, halphanum]

/-- Members that are all methods are plain: they have no class names. -/
theorem plain_methods {members : List Member}
    (h : ∀ member ∈ members, ∃ m, member = .method m) : PlainMembers members := by
  induction members with
  | nil => trivial
  | cons member rest ih =>
    obtain ⟨⟨m, rfl⟩, hrest⟩ := List.forall_mem_cons.mp h
    exact ih hrest

theorem plain_scriptMembers (items : List Item) (span : Span) :
    PlainMembers (scriptMembers items span) := by
  apply plain_methods
  intro member hmember
  rcases List.mem_append.mp hmember with h | h
  · obtain ⟨item, -, hitem⟩ := List.mem_filterMap.mp h
    cases item with
    | method m =>
      cases hitem
      exact ⟨_, rfl⟩
    | _ => cases hitem
  · split at h
    · cases h
    · exact ⟨_, List.mem_singleton.mp h⟩

theorem plain_extendClass? {name : String} {members : List Member}
    (hmembers : PlainMembers members) {classes extended : List ClassDef}
    (hclasses : ∀ c ∈ classes, c.Plain) (h : extendClass? name members classes = some extended) :
    ∀ c ∈ extended, c.Plain := by
  induction classes generalizing extended with
  | nil => cases h
  | cons first rest ih =>
    obtain ⟨hfirst, hrest⟩ := List.forall_mem_cons.mp hclasses
    rw [extendClass?] at h
    split at h
    · cases h
      refine List.forall_mem_cons.mpr ⟨?_, hrest⟩
      cases first with
      | mk own old synthetic span => exact ⟨hfirst.1, hfirst.2.append hmembers⟩
    · obtain ⟨more, hmore, rfl⟩ := Option.map_eq_some_iff.mp h
      exact List.forall_mem_cons.mpr ⟨hfirst, ih hrest hmore⟩

/-- The classes of a gathered unit are those that gathering makes of its items. -/
theorem classes_gather (program : Program) :
    program.gather.classes = gatherItems (scriptClassName program.source) program.items := by
  unfold Program.gather Program.classes
  rw [List.filterMap_map]
  exact List.filterMap_some

/-- Gathering keeps the names of classes plain. -/
theorem plain_gather {program : Program} (h : program.Plain) : program.gather.Plain := by
  unfold Program.Plain
  rw [classes_gather]
  unfold gatherItems
  simp only
  split
  · exact h
  · rename_i span _
    have hmembers := plain_scriptMembers program.items span
    split
    · rename_i extended hextended
      exact plain_extendClass? hmembers h hextended
    · exact List.forall_mem_cons.mpr ⟨⟨plain_scriptClassName _, hmembers⟩, h⟩

/-- The classes of every unit that is taken in have plain names. -/
theorem plain_readUnit {explicitPackages : Bool} {source text : String} {program : Program}
    (h : readUnit explicitPackages source text = .ok program) : program.Plain := by
  unfold readUnit at h
  split at h
  · cases h
  · rename_i written hwritten
    split at h
    · cases h
    · cases h
      exact plain_gather (plain_readProgram hwritten)

end StackScript.Syntax
