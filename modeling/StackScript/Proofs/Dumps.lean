import StackScript.Proofs.DumpForms

/-!
# Units told apart by their dumps

The dump of a unit that was read is faithful (`sexpr_faithful`): its parentheses match outside
quoted texts, and units with one dump are the same up to the places of their nodes.
-/

namespace StackScript.Syntax

open StackScript.Grammar StackScript.Source StackScript.Text

/-! ## Types and parameters -/

theorem mem_bracketPairs {dims : Nat} {c : Char} (h : c ∈ bracketPairs dims) : c ∈ ['[', ']'] := by
  obtain ⟨pair, hpair, hc⟩ := List.mem_flatten.mp h
  rw [List.eq_of_mem_replicate hpair] at hc
  exact hc

theorem length_bracketPairs (dims : Nat) : (bracketPairs dims).length = 2 * dims := by
  induction dims with
  | zero => rfl
  | succ dims ih =>
    rw [bracketPairs, List.replicate_succ, List.flatten_cons, List.length_append]
    rw [bracketPairs] at ih
    rw [ih, List.length_cons, List.length_singleton]
    omega

theorem TypeRef.Written.isFormWord {ref : TypeRef} (h : ref.Written) : IsFormWord ref.text := by
  have hpair : IsFormWord "[]" := by decide
  have hpairs : ∀ (dims : Nat) {text : String}, IsFormWord text →
      IsFormWord (text ++ String.join (List.replicate dims "[]")) := by
    intro dims
    induction dims with
    | zero =>
      intro text htext
      rw [List.replicate_zero, String.join_nil, String.append_empty]
      exact htext
    | succ dims ih =>
      intro text htext
      rw [List.replicate_succ, String.join_cons, ← String.append_assoc]
      exact ih (htext.append hpair)
  exact hpairs ref.dims (IsWord.isFormWord h)

/-- The written form of a type tells its name and the number of brackets. -/
theorem TypeRef.placeless_eq {ref other : TypeRef} (h : ref.Written) (hother : other.Written)
    (heq : ref.text = other.text) : ref.relabel placeless = other.relabel placeless := by
  have hchars := congrArg String.toList heq
  rw [TypeRef.toList_text, TypeRef.toList_text] at hchars
  -- the name goes up to the first bracket
  have hstop : ∀ dims, ∀ c ∈ (bracketPairs dims).head?, isNameChar c = false := by
    intro dims c hc
    have hmem := mem_bracketPairs (List.mem_of_mem_head? hc)
    simp only [List.mem_cons, List.not_mem_nil, or_false] at hmem
    rcases hmem with rfl | rfl <;> decide
  obtain ⟨hname, hpairs⟩ := stretch_unique h.2 hother.2 (hstop _) (hstop _) hchars
  have hdims := congrArg List.length hpairs
  rw [length_bracketPairs, length_bracketPairs] at hdims
  rw [TypeRef.relabel, TypeRef.relabel, String.toList_inj.mp hname,
    Nat.eq_of_mul_eq_mul_left (by decide) hdims]
  rfl

/-- The form that a parameter is dumped as. -/
def Param.form (param : Param) : Form := .list [.word param.name.name, .word param.type.text]

theorem Param.lays (param : Param) (h : param.Written) :
    Lays param.form param.sexpr.toList := by
  obtain ⟨hname, htype⟩ := h
  refine (Lays.headed hname.isFormWord (.blank (.word htype.isFormWord) .nil)).of_eq ?_
  simp [Param.sexpr]

theorem Param.placeless_eq {param other : Param} (h : param.Written) (hother : other.Written)
    (heq : param.form = other.form) : param.relabel placeless = other.relabel placeless := by
  simp only [Param.form, Form.list.injEq, List.cons.injEq, Form.word.injEq, and_true] at heq
  rw [Param.relabel, Param.relabel, Ident.placeless_eq heq.1,
    TypeRef.placeless_eq h.2 hother.2 heq.2]
  rfl

/-- Parameters are dumped as a list of their forms. -/
theorem params_lay {params : List Param} (h : ∀ param ∈ params, param.Written) :
    Lays (.list (params.map Param.form))
      ('(' :: ((spaced (params.map Param.sexpr)).toList ++ [')'])) := by
  -- the first of the parameters has no blank before it, so the induction is on the others
  have hrest : ∀ (first : String) (params : List Param), (∀ param ∈ params, param.Written) →
      ∃ cs, LaysRest (params.map Param.form) cs ∧
        (spaced (first :: params.map Param.sexpr)).toList = first.toList ++ cs := by
    intro first params
    induction params generalizing first with
    | nil => exact fun _ => ⟨[], .nil, by simp [spaced]⟩
    | cons param params ih =>
      intro h
      obtain ⟨hparam, hparams⟩ := List.forall_mem_cons.mp h
      obtain ⟨cs, hcs, htext⟩ := ih param.sexpr hparams
      refine ⟨_, .blank (param.lays hparam) hcs, ?_⟩
      rw [List.map_cons, spaced, String.intercalate_cons_cons, String.toList_append,
        String.toList_append]
      rw [spaced] at htext
      rw [htext, List.append_assoc]
      rfl
  cases params with
  | nil => exact .empty
  | cons param params =>
    obtain ⟨hparam, hparams⟩ := List.forall_mem_cons.mp h
    obtain ⟨cs, hcs, htext⟩ := hrest param.sexpr params hparams
    refine (Lays.list (param.lays hparam) hcs).of_eq ?_
    rw [List.map_cons, htext, List.append_assoc]

/-- What a map makes out of the items of a list depends on what another one makes out of them, if
it does so for each item. -/
theorem map_eq_of_map_eq {α β γ : Type} {f : α → β} {g : α → γ} {xs ys : List α}
    (h : ∀ x ∈ xs, ∀ y ∈ ys, f x = f y → g x = g y) (heq : xs.map f = ys.map f) :
    xs.map g = ys.map g := by
  induction xs generalizing ys with
  | nil => rw [List.map_eq_nil_iff.mp heq.symm]
  | cons x xs ih =>
    obtain ⟨y, ys, rfl, hfirst, hrest⟩ := List.map_eq_cons_iff.mp heq.symm
    have hxs : xs.map g = ys.map g := ih (fun x hx y hy =>
      h x (List.mem_cons_of_mem _ hx) y (List.mem_cons_of_mem _ hy)) hrest.symm
    rw [List.map_cons, List.map_cons, hxs,
      h x List.mem_cons_self y List.mem_cons_self hfirst.symm]

theorem params_placeless_eq {params others : List Param} (h : ∀ param ∈ params, param.Written)
    (hothers : ∀ param ∈ others, param.Written)
    (heq : params.map Param.form = others.map Param.form) :
    params.map (Param.relabel placeless) = others.map (Param.relabel placeless) :=
  map_eq_of_map_eq (fun param hparam other hother =>
    Param.placeless_eq (h param hparam) (hothers other hother)) heq

/-! ## Methods -/

/-- The word that a method is called by, with the sign of class methods before it. -/
def Method.headText (m : Method) : String := (if m.isStatic then "self." else "") ++ m.name.name

/-- The forms that a return type is dumped as. -/
def retForms : Option TypeRef → List Form
  | some type => [.word ":", .word type.text]
  | none => []

/-- The form that a method is dumped as. -/
def Method.form (m : Method) : Form :=
  .list (.word "def" :: .word m.headText :: .list (m.params.map Param.form) ::
    (retForms m.ret ++ m.body.forms))

theorem Method.Written.isFormWord {m : Method} (h : m.Written) : IsFormWord m.headText := by
  have hsign : IsFormWord "self." := by decide
  rw [Method.headText]
  split
  · exact hsign.append h.name.isFormWord
  · rw [String.empty_append]
    exact h.name.isFormWord

/-- A method is dumped as its form, whatever the indentation is. -/
theorem Method.lays (m : Method) (indent : Nat) (h : m.Written) :
    Lays m.form (m.sexpr indent).toList := by
  have hret : ∃ cs, LaysRest (retForms m.ret) cs ∧
      (match m.ret with
        | some written => " : " ++ written.text
        | none => "").toList = cs := by
    cases hm : m.ret with
    | none => exact ⟨_, .nil, rfl⟩
    | some type =>
      refine ⟨_, .blank (.word (by decide)) (.blank (.word (h.ret type hm).isFormWord) .nil), ?_⟩
      simp
  obtain ⟨cs, hcs, htext⟩ := hret
  refine (Lays.headed (by decide) (.blank (.word h.isFormWord) (.blank (params_lay h.params)
    (hcs.append (m.body.lays (indent + 2) h.body))))).of_eq ?_
  subst htext
  simp only [Method.sexpr, h.retType, Method.headText]
  cases m.ret <;> simp

/-- A statement is dumped as no word but as that of a name. -/
theorem Stmt.form_ne_colon {stmt : Stmt} (h : stmt.Written) : stmt.form ≠ .word ":" := by
  intro heq
  cases stmt with
  | expr value =>
    cases value with
    | var name =>
      have hname : IsWord name.name := h.1
      rw [Form.word.inj heq] at hname
      exact hname.not_mem (by decide) (by decide : ':' ∈ ":".toList)
    | _ => cases heq
  | ret value => cases value <;> cases heq
  | _ => cases heq

/-- A return type in front of a block is told from the statements of the block. -/
theorem ret_placeless_eq {ret other : Option TypeRef} {body body' : Block}
    (h : ∀ type ∈ ret, type.Written) (hother : ∀ type ∈ other, type.Written)
    (hbody : body.Written) (hbody' : body'.Written)
    (heq : retForms ret ++ body.forms = retForms other ++ body'.forms) :
    ret.map (TypeRef.relabel placeless) = other.map (TypeRef.relabel placeless) ∧
      body.forms = body'.forms := by
  -- a block starts with no colon, so a colon is there only in front of a type
  have hfirst : ∀ {block : Block} {forms : List Form}, block.Written →
      block.forms ≠ .word ":" :: forms := by
    rintro ⟨stmts, span⟩ forms hblock heq
    cases stmts with
    | nil => cases heq
    | cons stmt stmts => exact Stmt.form_ne_colon hblock.1 (List.cons.inj heq).1
  cases ret with
  | none =>
    cases other with
    | none => exact ⟨rfl, heq⟩
    | some type' => exact absurd heq (hfirst hbody)
  | some type =>
    cases other with
    | none => exact absurd heq.symm (hfirst hbody')
    | some type' =>
      simp only [retForms, List.cons_append, List.nil_append, List.cons.injEq, Form.word.injEq,
        true_and] at heq
      rw [Option.map_some, Option.map_some,
        TypeRef.placeless_eq (h type rfl) (hother type' rfl) heq.1]
      exact ⟨rfl, heq.2⟩

/-- The sign of class methods is no start of a name. -/
theorem Method.headText_inj {m other : Method} (h : m.Written) (hother : other.Written)
    (heq : m.headText = other.headText) :
    m.isStatic = other.isStatic ∧ m.name.name = other.name.name := by
  -- a name has no dot in it
  have hsign : ∀ {name name' : Ident}, IsWord name'.name → "self." ++ name.name ≠ name'.name := by
    intro name name' hname' heq
    have hmem : '.' ∈ name'.name.toList := by
      rw [← heq, String.toList_append]
      exact List.mem_append_left _ (by decide)
    exact hname'.not_mem (by decide) hmem
  rw [Method.headText, Method.headText] at heq
  cases hstatic : m.isStatic <;> cases hstatic' : other.isStatic <;>
    simp only [hstatic, hstatic', if_true, Bool.false_eq_true, if_false, String.empty_append] at heq
  · exact ⟨rfl, heq⟩
  · exact absurd heq.symm (hsign h.name)
  · exact absurd heq (hsign hother.name)
  · have hchars := congrArg String.toList heq
    rw [String.toList_append, String.toList_append] at hchars
    exact ⟨rfl, String.toList_inj.mp (List.append_cancel_left hchars)⟩

/-- Methods with one form are the same up to the places of their nodes. -/
theorem Method.placeless_eq {m other : Method} (h : m.Written) (hother : other.Written)
    (heq : m.form = other.form) : m.relabel placeless = other.relabel placeless := by
  simp only [Method.form, Form.list.injEq, List.cons.injEq, Form.word.injEq, true_and] at heq
  obtain ⟨hhead, hparams, hrest⟩ := heq
  obtain ⟨hstatic, hname⟩ := Method.headText_inj h hother hhead
  obtain ⟨hret, hbody⟩ := ret_placeless_eq h.ret hother.ret h.body hother.body hrest
  rw [Method.relabel, Method.relabel, Ident.placeless_eq hname, hstatic,
    params_placeless_eq h.params hother.params hparams, hret,
    m.body.placeless_eq h.body hother.body hbody, h.retType, hother.retType]
  rfl

/-! ## Classes -/

mutual

/-- The form that a class of the text is dumped as. -/
def ClassDef.form : ClassDef → Form
  | .mk name members _ _ => .list (.word "class" :: .word name.name :: memberForms members)

/-- The forms that members are dumped as. -/
def memberForms : List Member → List Form
  | [] => []
  | .method m :: members => m.form :: memberForms members
  | .nested c :: members => c.form :: memberForms members

end

mutual

/-- A class is dumped as its form, whatever the indentation is. -/
theorem ClassDef.lays : ∀ (c : ClassDef) (indent : Nat), c.Written →
    Lays c.form (c.sexpr indent).toList
  | .mk name members synthetic _, indent, ⟨hname, hmembers, hsynthetic⟩ => by
    refine (Lays.headed (by decide) (.blank (.word hname.isFormWord)
      (members_lay members (indent + 2) hmembers))).of_eq ?_
    simp [ClassDef.sexpr, hsynthetic]

theorem members_lay : ∀ (members : List Member) (indent : Nat), WrittenMembers members →
    LaysRest (memberForms members) (membersSexpr indent members).toList
  | [], _, _ => .nil
  | .method m :: members, indent, ⟨hm, hmembers⟩ => by
    refine (LaysRest.line indent (m.lays indent hm) (members_lay members indent hmembers)).of_eq ?_
    simp [membersSexpr]
  | .nested c :: members, indent, ⟨hc, hmembers⟩ => by
    refine (LaysRest.line indent (c.lays indent hc) (members_lay members indent hmembers)).of_eq ?_
    simp [membersSexpr]

end

theorem ClassDef.exists_form (c : ClassDef) : ∃ forms, c.form = .list (.word "class" :: forms) := by
  cases c
  exact ⟨_, rfl⟩

theorem ClassDef.form_ne_method (c : ClassDef) (m : Method) : c.form ≠ m.form := by
  obtain ⟨forms, hforms⟩ := c.exists_form
  rw [hforms, Method.form]
  simp

mutual

/-- Classes with one form are the same up to the places of their nodes. -/
theorem ClassDef.placeless_eq : ∀ (c : ClassDef) {other : ClassDef}, c.Written → other.Written →
    c.form = other.form → c.relabel placeless = other.relabel placeless
  | .mk name members synthetic _, .mk name' members' synthetic' _, ⟨_, hmembers, hsynthetic⟩,
      ⟨_, hmembers', hsynthetic'⟩, heq => by
    simp only [ClassDef.form, Form.list.injEq, List.cons.injEq, Form.word.injEq, true_and] at heq
    rw [ClassDef.relabel, ClassDef.relabel, Ident.placeless_eq heq.1,
      members_placeless_eq members hmembers hmembers' heq.2, hsynthetic, hsynthetic']
    rfl

theorem members_placeless_eq : ∀ (members : List Member) {others : List Member},
    WrittenMembers members → WrittenMembers others → memberForms members = memberForms others →
    relabelMembers placeless members = relabelMembers placeless others
  | [], others, _, _, heq => by
    cases others with
    | nil => rfl
    | cons other others => cases other <;> cases heq
  | .method m :: members, others, ⟨hm, hmembers⟩, h', heq => by
    cases others with
    | nil => cases heq
    | cons other others =>
      cases other with
      | method m' =>
        obtain ⟨hfirst, hrest⟩ := List.cons.inj heq
        rw [relabelMembers, relabelMembers, Method.placeless_eq hm h'.1 hfirst,
          members_placeless_eq members hmembers h'.2 hrest]
      | nested c' => exact absurd (List.cons.inj heq).1.symm (c'.form_ne_method m)
  | .nested c :: members, others, ⟨hc, hmembers⟩, h', heq => by
    cases others with
    | nil => cases heq
    | cons other others =>
      cases other with
      | method m' => exact absurd (List.cons.inj heq).1 (c.form_ne_method m')
      | nested c' =>
        obtain ⟨hfirst, hrest⟩ := List.cons.inj heq
        rw [relabelMembers, relabelMembers, c.placeless_eq hc h'.1 hfirst,
          members_placeless_eq members hmembers h'.2 hrest]

end

/-! ## Units -/

/-- The form that an item is dumped as. -/
def Item.form : Item → Form
  | .cls c => c.form
  | .method m => m.form
  | .stmt s => s.form

theorem Item.lays (item : Item) (indent : Nat) (h : item.Written) :
    Lays item.form (item.sexpr indent).toList := by
  cases item with
  | cls c => exact c.lays indent h
  | method m => exact m.lays indent h
  | stmt s => exact s.lays indent h

theorem Item.head_mem (item : Item) {head : String} {forms : List Form}
    (h : item.form = .list (.word head :: forms)) : head ∈ "class" :: "def" :: stmtHeads := by
  cases item with
  | cls c =>
    cases c
    cases h
    exact List.mem_cons_self
  | method m =>
    cases h
    exact List.mem_cons_of_mem _ List.mem_cons_self
  | stmt s => exact List.mem_cons_of_mem _ (List.mem_cons_of_mem _ (s.head_mem h))

/-- Items with one form are the same up to the places of their nodes. -/
theorem Item.placeless_eq {item other : Item} (h : item.Written) (hother : other.Written)
    (heq : item.form = other.form) : item.relabel placeless = other.relabel placeless := by
  -- no statement is headed by the word of a class or by that of a method
  have hcls : ∀ (c : ClassDef) (s : Stmt), c.form ≠ s.form := by
    intro c s heq
    obtain ⟨forms, hforms⟩ := c.exists_form
    exact absurd (s.head_mem (heq.symm.trans hforms)) (by decide)
  have hmethod : ∀ (m : Method) (s : Stmt), m.form ≠ s.form := fun m s heq =>
    absurd (s.head_mem heq.symm) (by decide)
  cases item with
  | cls c =>
    cases other with
    | cls c' => exact congrArg Item.cls (c.placeless_eq h hother heq)
    | method m' => exact absurd heq (c.form_ne_method m')
    | stmt s' => exact absurd heq (hcls c s')
  | method m =>
    cases other with
    | cls c' => exact absurd heq.symm (c'.form_ne_method m)
    | method m' => exact congrArg Item.method (Method.placeless_eq h hother heq)
    | stmt s' => exact absurd heq (hmethod m s')
  | stmt s =>
    cases other with
    | cls c' => exact absurd heq.symm (hcls c' s)
    | method m' => exact absurd heq.symm (hmethod m' s)
    | stmt s' => exact congrArg Item.stmt (s.placeless_eq h hother heq)

theorem items_placeless_eq {items others : List Item} (h : ∀ item ∈ items, item.Written)
    (hothers : ∀ item ∈ others, item.Written) (heq : items.map Item.form = others.map Item.form) :
    items.map (Item.relabel placeless) = others.map (Item.relabel placeless) :=
  map_eq_of_map_eq (fun item hitem other hother =>
    Item.placeless_eq (h item hitem) (hothers other hother)) heq

theorem items_lay {items : List Item} (h : ∀ item ∈ items, item.Written) :
    LaysRest (items.map Item.form)
      (String.join (items.map fun item => newLine 2 ++ item.sexpr 2)).toList := by
  induction items with
  | nil => exact .nil
  | cons item items ih =>
    obtain ⟨hitem, hitems⟩ := List.forall_mem_cons.mp h
    refine (LaysRest.line 2 (item.lays 2 hitem) (ih hitems)).of_eq ?_
    simp

theorem Dotted.isFormWord {text : String} (h : Dotted text) : IsFormWord text := by
  have hdot : IsFormWord "." := by decide
  obtain ⟨words, hne, hwords, rfl⟩ := h
  obtain ⟨first, words, rfl⟩ := List.exists_cons_of_ne_nil hne
  clear hne
  induction words generalizing first with
  | nil => exact (hwords first List.mem_cons_self).isFormWord
  | cons word words ih =>
    obtain ⟨hfirst, hwords⟩ := List.forall_mem_cons.mp hwords
    rw [String.intercalate_cons_cons]
    exact (hfirst.isFormWord.append hdot).append (ih word hwords)

/-- The forms that a package declaration is dumped as. -/
def packageForms : Option Package → List Form
  | some package => [.list [.word "package", .word package.name]]
  | none => []

/-- The form that a unit is dumped as. -/
def Program.form (program : Program) : Form :=
  .list (.word "unit" :: .quote program.source ::
    (packageForms program.package ++ program.items.map Item.form))

/-- A unit is dumped as its form. -/
theorem Program.lays (program : Program) (h : program.Written) :
    Lays program.form program.sexpr.toList := by
  have hpackage : ∃ cs, LaysRest (packageForms program.package) cs ∧
      (match program.package with
        | some package => " (package " ++ package.name ++ ")"
        | none => "").toList = cs := by
    cases hdeclared : program.package with
    | none => exact ⟨_, .nil, rfl⟩
    | some package =>
      have hword := (h.package package hdeclared).isFormWord
      refine ⟨_, .blank (Lays.headed (by decide) (.blank (.word hword) .nil)) .nil, ?_⟩
      simp
  obtain ⟨cs, hcs, htext⟩ := hpackage
  refine (Lays.headed (by decide) (.blank (.quote program.source)
    (hcs.append (items_lay h.items)))).of_eq ?_
  subst htext
  simp only [Program.sexpr]
  cases program.package <;> simp

/-- A package declaration in front of the items is told from the first item. -/
theorem package_placeless_eq {package other : Option Package} {items items' : List Item}
    (heq : packageForms package ++ items.map Item.form =
      packageForms other ++ items'.map Item.form) :
    package.map (Package.relabel placeless) = other.map (Package.relabel placeless) ∧
      items.map Item.form = items'.map Item.form := by
  have hfirst : ∀ {items : List Item} {forms more : List Form},
      items.map Item.form ≠ .list (.word "package" :: forms) :: more := by
    intro items forms more heq
    obtain ⟨item, _, rfl, hitem, -⟩ := List.map_eq_cons_iff.mp heq
    exact absurd (item.head_mem hitem) (by decide)
  cases package with
  | none =>
    cases other with
    | none => exact ⟨rfl, heq⟩
    | some package' => exact absurd heq hfirst
  | some package =>
    cases other with
    | none => exact absurd heq.symm hfirst
    | some package' =>
      simp only [packageForms, List.cons_append, List.nil_append, List.cons.injEq,
        Form.list.injEq, Form.word.injEq, true_and, and_true] at heq
      rw [Option.map_some, Option.map_some, Package.relabel, Package.relabel, heq.1]
      exact ⟨rfl, heq.2⟩

/-- Units with one form are the same up to the places of their nodes. -/
theorem Program.placeless_eq {program other : Program} (h : program.Written)
    (hother : other.Written) (heq : program.form = other.form) :
    program.relabel placeless = other.relabel placeless := by
  simp only [Program.form, Form.list.injEq, List.cons.injEq, Form.quote.injEq, true_and] at heq
  obtain ⟨hsource, hrest⟩ := heq
  obtain ⟨hpackage, hitems⟩ := package_placeless_eq hrest
  rw [Program.relabel, Program.relabel, hsource, hpackage,
    items_placeless_eq h.items hother.items hitems]
  rfl

/-- **The dump of a unit that was read is faithful.** Outside quoted texts its parentheses match,
and any other unit that was read has the same dump only if it is the same up to the places of its
nodes. -/
theorem sexpr_faithful {source text : String} {program : Program}
    (h : readProgram source text = .ok program) :
    Balanced program.sexpr.toList ∧
      ∀ {source' text' : String} {other : Program}, readProgram source' text' = .ok other →
        program.sexpr = other.sexpr → program.relabel placeless = other.relabel placeless := by
  have hwritten := written_readProgram h
  have hlays := program.lays hwritten
  refine ⟨hlays.balanced, fun hother heq => ?_⟩
  -- the two forms are laid out as one text, so they are one form
  have hotherWritten := written_readProgram hother
  have hotherLays := Program.lays _ hotherWritten
  rw [← heq] at hotherLays
  exact Program.placeless_eq hwritten hotherWritten (hlays.form_unique hotherLays)

/-- A call with a string that has a parenthesis and a quote in it, and an operand with a sign. -/
def terseText : String := "puts f(\"(\\\"\", -x)"

/-- The same call with more room. -/
def roomyText : String := "\nputs f( \"(\\\"\" , - x )  # the same\n"

theorem sexpr_faithful_roomyText : ∃ program other,
    readProgram "unit" terseText = .ok program ∧ readProgram "unit" roomyText = .ok other ∧
      program.sexpr = other.sexpr ∧ program.span ≠ other.span ∧
        program.relabel placeless = other.relabel placeless := by
  have hread : ((readProgram "unit" terseText).toOption.bind fun program =>
      (readProgram "unit" roomyText).toOption.map fun other =>
        decide (program.sexpr = other.sexpr) && decide (program.span ≠ other.span)) =
      some true := by decide +kernel
  cases hterse : readProgram "unit" terseText with
  | error fault =>
    rw [hterse] at hread
    cases hread
  | ok program =>
    cases hroomy : readProgram "unit" roomyText with
    | error fault =>
      rw [hterse, hroomy] at hread
      cases hread
    | ok other =>
      rw [hterse, hroomy] at hread
      obtain ⟨hsexpr, hspan⟩ := (Bool.and_eq_true _ _).mp (Option.some.inj hread)
      have hsexpr := of_decide_eq_true hsexpr
      obtain ⟨-, hfaithful⟩ := sexpr_faithful hterse
      exact ⟨program, other, rfl, rfl, hsexpr, of_decide_eq_true hspan, hfaithful hroomy hsexpr⟩

end StackScript.Syntax
