import StackScript.Proofs.PlainNames
import StackScript.Typing.Batch

/-!
# Qualified names

The qualified name of a class with a plain name tells its package and the class around it
(`Qualified.unique`): a plain name has no dots and no dollar signs, so the last of those in a
qualified name says whether the class is nested, and what stands before it.
-/

namespace StackScript.Typing

open StackScript.Source StackScript.Syntax

/-! ## Cutting names -/

/-- The qualified name of a class with a plain name, with its package and the class around it. -/
inductive Qualified : String → Option String → Option String → Prop where
  | top {package : Option String} {name : String} (h : PlainName name) :
      Qualified (qualify package none name) package none
  | nested {package around : Option String} {outer name : String}
      (houter : Qualified outer package around) (h : PlainName name) :
      Qualified (qualify package (some outer) name) package (some outer)

/-- Where a text is cut at its last character that is in no name, the parts are unique. -/
theorem cut_unique {front front' name name' : List Char} {c c' : Char}
    (hname : ∀ d ∈ name, isNameChar d = true) (hname' : ∀ d ∈ name', isNameChar d = true)
    (hc : isNameChar c = false) (hc' : isNameChar c' = false)
    (h : front ++ c :: name = front' ++ c' :: name') : front = front' ∧ c = c' := by
  rcases List.append_eq_append_iff.mp h with ⟨middle, rfl, hmiddle⟩ | ⟨middle, rfl, hmiddle⟩
  · cases middle with
    | nil =>
      cases hmiddle
      exact ⟨(List.append_nil _).symm, rfl⟩
    | cons d middle =>
      -- the other cut would lie inside the name
      cases hmiddle
      have := hname c' (List.mem_append_right _ List.mem_cons_self)
      rw [hc'] at this
      cases this
  · cases middle with
    | nil =>
      cases hmiddle
      exact ⟨List.append_nil _, rfl⟩
    | cons d middle =>
      cases hmiddle
      have := hname' c (List.mem_append_right _ List.mem_cons_self)
      rw [hc] at this
      cases this

theorem toList_qualify_nested (package : Option String) (outer name : String) :
    (qualify package (some outer) name).toList = outer.toList ++ '$' :: name.toList := by
  rw [qualify, String.toList_append, String.toList_append, List.append_assoc]
  rfl

/-- A class has a longer name than the class around it. -/
theorem length_lt_qualify (package : Option String) (outer name : String) :
    outer.length < (qualify package (some outer) name).length := by
  rw [← String.length_toList, ← String.length_toList, toList_qualify_nested, List.length_append,
    List.length_cons]
  omega

theorem toList_qualify_top (package name : String) :
    (qualify (some package) none name).toList = package.toList ++ '.' :: name.toList := by
  rw [qualify, String.toList_append, String.toList_append, List.append_assoc]
  rfl

/-- No plain name has a character in it that names do not have. -/
theorem not_plain_append {front name : List Char} {c : Char} (hc : isNameChar c = false)
    {plain : String} (h : PlainName plain) : plain.toList ≠ front ++ c :: name := by
  intro heq
  have := h c (heq ▸ List.mem_append_right _ List.mem_cons_self)
  rw [hc] at this
  cases this

/-- The name of a top-level class is not that of a nested one. -/
theorem qualify_top_ne_nested {package package' : Option String} {name outer name' : String}
    (h : PlainName name) (h' : PlainName name') :
    qualify package none name ≠ qualify package' (some outer) name' := by
  intro heq
  have heq := congrArg String.toList heq
  rw [toList_qualify_nested] at heq
  cases package with
  | none => exact not_plain_append (by decide) h heq
  | some package =>
    rw [toList_qualify_top] at heq
    have hsep := (cut_unique h h' (by decide) (by decide) heq).2
    exact absurd hsep (by decide)

/-- Top-level classes of one qualified name are of one package. -/
theorem qualify_top_inj {package package' : Option String} {name name' : String}
    (h : PlainName name) (h' : PlainName name')
    (heq : qualify package none name = qualify package' none name') : package = package' := by
  have heq := congrArg String.toList heq
  cases package with
  | none =>
    cases package' with
    | none => rfl
    | some package' =>
      rw [toList_qualify_top] at heq
      exact absurd heq (not_plain_append (by decide) h)
  | some package =>
    cases package' with
    | none =>
      rw [toList_qualify_top] at heq
      exact absurd heq.symm (not_plain_append (by decide) h')
    | some package' =>
      rw [toList_qualify_top, toList_qualify_top] at heq
      have hfront := (cut_unique h h' (by decide) (by decide) heq).1
      rw [String.toList_inj.mp hfront]

theorem qualify_nested_inj {package package' : Option String} {outer outer' name name' : String}
    (h : PlainName name) (h' : PlainName name')
    (heq : qualify package (some outer) name = qualify package' (some outer') name') :
    outer = outer' := by
  have heq := congrArg String.toList heq
  rw [toList_qualify_nested, toList_qualify_nested] at heq
  exact String.toList_inj.mp (cut_unique h h' (by decide) (by decide) heq).1

/-- What a nested class adds to the name of the class around it is a plain name, and that class is
in the same package. -/
theorem Qualified.nested_inv {name outer : String} {package : Option String}
    (h : Qualified name package (some outer)) :
    (∃ around, Qualified outer package around) ∧
      ∀ simple, name = qualify package (some outer) simple → PlainName simple := by
  cases h with
  | nested houter hplain =>
    refine ⟨⟨_, houter⟩, fun simple heq => ?_⟩
    have heq := congrArg String.toList heq
    rw [toList_qualify_nested, toList_qualify_nested] at heq
    have hsame := (List.cons.inj (List.append_cancel_left heq)).2
    exact String.toList_inj.mp hsame ▸ hplain

/-- A qualified name tells the package and the class around it. -/
theorem Qualified.unique {name name' : String} {package around package' around' : Option String}
    (h : Qualified name package around) (h' : Qualified name' package' around')
    (heq : name = name') : package = package' ∧ around = around' := by
  induction h generalizing name' package' around' with
  | top hplain =>
    cases h' with
    | top hplain' => exact ⟨qualify_top_inj hplain hplain' heq, rfl⟩
    | nested _ hplain' => exact absurd heq (qualify_top_ne_nested hplain hplain')
  | nested houter hplain ih =>
    cases h' with
    | top hplain' => exact absurd heq.symm (qualify_top_ne_nested hplain' hplain)
    | nested houter' hplain' =>
      have hsame := qualify_nested_inj hplain hplain' heq
      exact ⟨(ih houter' hsame).1, congrArg some hsame⟩

/-- A declared class has the qualified name that its package and the class around it give it. -/
def Declaration.Formed : Declaration → Prop
  | .cls name package around => Qualified name package around
  | .method _ _ => True

mutual

theorem formed_declarations (package : Option String) : ∀ (enclosing : Option String)
    (c : ClassDef), (∀ outer, enclosing = some outer → ∃ around, Qualified outer package around) →
      c.Plain → ∀ d ∈ declarations package enclosing c, d.Formed
  | enclosing, .mk name members _ _, houter, hplain => by
    have hname : Qualified (qualify package enclosing name.name) package enclosing := by
      cases enclosing with
      | none => exact .top hplain.1
      | some outer =>
        obtain ⟨around, houter⟩ := houter outer rfl
        exact .nested houter hplain.1
    refine List.forall_mem_cons.mpr ⟨hname, ?_⟩
    exact formed_memberDeclarations package _ members ⟨enclosing, hname⟩ hplain.2

theorem formed_memberDeclarations (package : Option String) : ∀ (cls : String)
    (members : List Member), (∃ around, Qualified cls package around) → PlainMembers members →
      ∀ d ∈ memberDeclarations package cls members, d.Formed
  | _, [], _, _ => fun _ hd => nomatch hd
  | cls, .method _ :: rest, hcls, hplain =>
    List.forall_mem_cons.mpr ⟨trivial, formed_memberDeclarations package cls rest hcls hplain⟩
  | cls, .nested c :: rest, hcls, hplain =>
    List.forall_mem_append.mpr
      ⟨formed_declarations package (some cls) c (fun _ h => Option.some.inj h ▸ hcls) hplain.1,
        formed_memberDeclarations package cls rest hcls hplain.2⟩

end

theorem formed_batchDeclarations {batch : List Program} (h : ∀ program ∈ batch, program.Plain) :
    ∀ d ∈ batchDeclarations batch, d.2.Formed := by
  intro d hd
  obtain ⟨program, hprogram, hd⟩ := List.mem_flatMap.mp hd
  obtain ⟨declaration, hdeclaration, rfl⟩ := List.mem_map.mp hd
  obtain ⟨c, hc, hdeclaration⟩ := List.mem_flatMap.mp hdeclaration
  exact formed_declarations _ none c (fun _ h => nomatch h) (h program hprogram c hc) _ hdeclaration

end StackScript.Typing
