import StackScript.Proofs.Stretches

/-!
# Looking up lines

The line table says where statements start, not where they end. The stretches of a method are laid
out such that a statement comes before those in it, and any two are apart or nested (`Laid`). So
the last statement that starts at or before a place is the innermost one that has the instruction
there, unless that one has statements in it that ended already: then it is the last of these
(`Laid.found`). This is the statement whose line a lookup finds (`lineFor_finds`). For the
instructions that a statement has behind those of the statements in it, such as the jump back of a
loop or a later condition, it is not the line of the statement itself.
-/

namespace StackScript.Code

open StackScript.Machine StackScript.Source StackScript.Syntax StackScript.Typing

/-! ## Laid-out stretches -/

/-- The stretches lie between two places, and of any two of them the later one lies behind the
earlier one or within it. -/
structure Laid (low high : Nat) (stretches : List Stretch) : Prop where
  bounds : ∀ s ∈ stretches, low ≤ s.first ∧ s.first ≤ s.behind ∧ s.behind ≤ high
  nested : stretches.Pairwise fun s t => s.behind ≤ t.first ∨ t.Within s

namespace Laid

variable {low mid high : Nat} {xs ys : List Stretch}

theorem nil (low high : Nat) : Laid low high [] := ⟨List.forall_mem_nil _, .nil⟩

theorem mono (h : Laid low high xs) {low' high' : Nat} (hlow : low' ≤ low)
    (hhigh : high ≤ high') : Laid low' high' xs := by
  refine ⟨fun s hs => ?_, h.nested⟩
  obtain ⟨hfirst, hs, hbehind⟩ := h.bounds s hs
  exact ⟨Nat.le_trans hlow hfirst, hs, Nat.le_trans hbehind hhigh⟩

/-- Stretches with others behind them. -/
theorem append (h : Laid low mid xs) (h' : Laid mid high ys) (hlow : low ≤ mid)
    (hhigh : mid ≤ high) : Laid low high (xs ++ ys) := by
  refine ⟨List.forall_mem_append.mpr ⟨(h.mono (Nat.le_refl _) hhigh).bounds,
    (h'.mono hlow (Nat.le_refl _)).bounds⟩, ?_⟩
  rw [List.pairwise_append]
  refine ⟨h.nested, h'.nested, fun s hs t ht => .inl ?_⟩
  exact Nat.le_trans (h.bounds s hs).2.2 (h'.bounds t ht).1

/-- A statement with those in it. -/
theorem enclose (h : Laid low high xs) (hle : low ≤ high) (stmt : Stmt) :
    Laid low high (⟨stmt, low, high⟩ :: xs) := by
  refine ⟨List.forall_mem_cons.mpr ⟨⟨Nat.le_refl _, hle, Nat.le_refl _⟩, h.bounds⟩, ?_⟩
  rw [List.pairwise_cons]
  refine ⟨fun t ht => .inr ?_, h.nested⟩
  exact ⟨(h.bounds t ht).1, (h.bounds t ht).2.2⟩

theorem single (hle : low ≤ high) (stmt : Stmt) : Laid low high [⟨stmt, low, high⟩] :=
  (nil low high).enclose hle stmt

/-- Stretches come in the order in which they start. -/
theorem sorted (h : Laid low high xs) : xs.Pairwise fun s t => s.first ≤ t.first := by
  refine h.nested.imp_of_mem fun {s t} hs _ hnested => ?_
  rcases hnested with hapart | hwithin
  · exact Nat.le_trans (h.bounds s hs).2.1 hapart
  · exact hwithin.1

end Laid

mutual

/-- The stretches of a statement are laid out between its place and the place behind it. -/
theorem laid_stmtStretches : ∀ (stmt : Stmt) (place : Nat),
    Laid place (place + stmtSize stmt) (stmtStretches place stmt)
  | .cond chain span, place =>
    (laid_chainStretches chain place).enclose (Nat.le_add_right _ _) (.cond chain span)
  | .loop condition body span, place => by
    have hbody := laid_blockStretches body (place + exprSize condition + 1)
    refine (hbody.mono ?_ ?_).enclose (Nat.le_add_right _ _) (.loop condition body span)
    · omega
    · rw [stmtSize]
      omega
  | .expr _ _, _ | .assign _ _ _, _ | .ret _ _, _ | .puts _ _, _ | .raise _ _, _ =>
    .single (Nat.le_add_right _ _) _

theorem laid_blockStretches : ∀ (block : Block) (place : Nat),
    Laid place (place + blockSize block) (blockStretches place block)
  | .mk stmts _, place => laid_stmtsStretches stmts place

theorem laid_stmtsStretches : ∀ (stmts : List Stmt) (place : Nat),
    Laid place (place + stmtsSize stmts) (stmtsStretches place stmts)
  | [], _ => .nil _ _
  | stmt :: stmts, place => by
    have hrest := laid_stmtsStretches stmts (place + stmtSize stmt)
    rw [stmtsSize, ← Nat.add_assoc]
    exact (laid_stmtStretches stmt place).append hrest (Nat.le_add_right _ _)
      (Nat.le_add_right _ _)

theorem laid_chainStretches : ∀ (chain : Chain) (place : Nat),
    Laid place (place + chainSize chain) (chainStretches place chain)
  | .done, _ => .nil _ _
  | .otherwise body, place => laid_blockStretches body place
  | .branch condition body rest, place => by
    -- the branches after this one stand behind its jump to the end
    have hbody := laid_blockStretches body (place + exprSize condition + 1)
    have hrest := laid_chainStretches rest (place + exprSize condition + 1 + blockSize body + 1)
    refine (hbody.mono ?_ (Nat.le_succ _)).append (hrest.mono (Nat.le_refl _) ?_) ?_ ?_
    · omega
    · rw [chainSize]
      omega
    · omega
    · rw [chainSize]
      omega

end

section

variable {file : String} {ret : Ty} {stmts : List Stmt} {slots : Slots} {place : Nat}
  {emitted : Emitted}

/-- The stretches of a body are laid out between its ends. -/
theorem laid_bodyStretches (hcode : bodyCode file ret slots place stmts = .ok emitted) :
    Laid place (place + emitted.code.length) (bodyStretches ret place stmts) := by
  induction stmts generalizing slots place emitted with
  | nil => exact .nil _ _
  | cons stmt rest ih =>
    rcases isLast_cases stmt rest with hlast | ⟨value, span, rfl, rfl⟩
    · rw [bodyCode_cons hlast] at hcode
      simp only [bind_eq_ok, pure_eq_ok] at hcode
      obtain ⟨first, hfirst, others, hothers, rfl⟩ := hcode
      have hrest := ih hothers
      rw [length_stmtCode stmt hfirst] at hrest
      rw [bodyStretches_cons hlast, code_append, List.length_append, length_stmtCode stmt hfirst,
        ← Nat.add_assoc]
      exact (laid_stmtStretches stmt place).append hrest (Nat.le_add_right _ _)
        (Nat.le_add_right _ _)
    · rw [bodyCode] at hcode
      rw [bodyStretches]
      split at hcode
      · rename_i hvoid
        rw [if_pos hvoid, length_stmtCode _ hcode]
        exact laid_stmtStretches _ place
      · rename_i hvoid
        simp only [bind_eq_ok, pure_eq_ok] at hcode
        obtain ⟨made, hvalue, rfl⟩ := hcode
        rw [if_neg hvoid, code_markLine, code_plain, List.length_append,
          length_exprCode value hvalue]
        exact .single (Nat.le_add_right _ _) _

theorem head_stmtStretches (stmt : Stmt) (place : Nat) :
    ⟨stmt, place, place + stmtSize stmt⟩ ∈ stmtStretches place stmt := by
  cases stmt <;> exact List.mem_cons_self

/-- Every instruction of a body is one of those of a statement. -/
theorem exists_has_of_bodyCode (hcode : bodyCode file ret slots place stmts = .ok emitted)
    {pc : Nat} (hlow : place ≤ pc) (hhigh : pc < place + emitted.code.length) :
    ∃ s ∈ bodyStretches ret place stmts, s.Has pc := by
  induction stmts generalizing slots place emitted with
  | nil =>
    cases hcode
    exact absurd hhigh (Nat.not_lt.mpr hlow)
  | cons stmt rest ih =>
    rcases isLast_cases stmt rest with hlast | ⟨value, span, rfl, rfl⟩
    · rw [bodyCode_cons hlast] at hcode
      simp only [bind_eq_ok, pure_eq_ok] at hcode
      obtain ⟨first, hfirst, others, hothers, rfl⟩ := hcode
      rw [code_append, List.length_append, ← Nat.add_assoc] at hhigh
      rw [bodyStretches_cons hlast, ← length_stmtCode stmt hfirst]
      rcases Nat.lt_or_ge pc (place + first.code.length) with hlt | hge
      · refine ⟨_, List.mem_append_left _ (head_stmtStretches stmt place), hlow, ?_⟩
        rwa [← length_stmtCode stmt hfirst]
      · obtain ⟨s, hs, hhas⟩ := ih hothers hge hhigh
        exact ⟨s, List.mem_append_right _ hs, hhas⟩
    · rw [bodyCode] at hcode
      rw [bodyStretches]
      split at hcode
      · rename_i hvoid
        rw [if_pos hvoid]
        rw [length_stmtCode _ hcode] at hhigh
        exact ⟨_, head_stmtStretches _ place, hlow, hhigh⟩
      · rename_i hvoid
        simp only [bind_eq_ok, pure_eq_ok] at hcode
        obtain ⟨made, hvalue, rfl⟩ := hcode
        rw [code_markLine, code_plain, List.length_append, length_exprCode value hvalue] at hhigh
        rw [if_neg hvoid]
        exact ⟨_, List.mem_singleton_self _, hlow, hhigh⟩

end

/-! ## The statement that is found -/

/-- The statement is the innermost one that has the instruction at the place. -/
structure IsInnermost (stretches : List Stretch) (place : Nat) (s : Stretch) : Prop where
  mem : s ∈ stretches
  has : s.Has place
  within : ∀ t ∈ stretches, t.Has place → s.Within t

/-- The statement is the last one that starts at or before the place. -/
structure IsLastBegun (stretches : List Stretch) (place : Nat) (t : Stretch) : Prop where
  mem : t ∈ stretches
  begun : t.first ≤ place
  latest : ∀ u ∈ stretches, u.first ≤ place → u.first ≤ t.first

/-- A list with an item of some kind has a last one of them. -/
theorem exists_last {α : Type} {holds : α → Prop} {xs : List α} (h : ∃ x ∈ xs, holds x) :
    ∃ before x after, xs = before ++ x :: after ∧ holds x ∧ ∀ y ∈ after, ¬ holds y := by
  induction xs with
  | nil =>
    obtain ⟨x, hx, -⟩ := h
    cases hx
  | cons first rest ih =>
    by_cases hrest : ∃ x ∈ rest, holds x
    · obtain ⟨before, x, after, rfl, hx, hafter⟩ := ih hrest
      exact ⟨first :: before, x, after, rfl, hx, hafter⟩
    · obtain ⟨x, hx, hholds⟩ := h
      rcases List.mem_cons.mp hx with rfl | hx
      · exact ⟨[], x, rest, rfl, hholds, fun y hy hyholds => hrest ⟨y, hy, hyholds⟩⟩
      · exact absurd ⟨x, hx, hholds⟩ hrest

/-- Along a list in order, what starts at or before a place is what comes first. -/
theorem mem_takeWhile_begun {xs : List Stretch} (h : xs.Pairwise fun s t => s.first ≤ t.first)
    {place : Nat} {s : Stretch} :
    s ∈ xs.takeWhile (·.first ≤ place) ↔ s ∈ xs ∧ s.first ≤ place := by
  induction xs with
  | nil => simp
  | cons x rest ih =>
    obtain ⟨hx, hrest⟩ := List.pairwise_cons.mp h
    by_cases hbegun : x.first ≤ place
    · rw [List.takeWhile_cons, if_pos (by simpa using hbegun), List.mem_cons, List.mem_cons,
        ih hrest]
      constructor
      · rintro (rfl | ⟨hs, hle⟩)
        · exact ⟨.inl rfl, hbegun⟩
        · exact ⟨.inr hs, hle⟩
      · rintro ⟨rfl | hs, hle⟩
        · exact .inl rfl
        · exact .inr ⟨hs, hle⟩
    · rw [List.takeWhile_cons, if_neg (by simpa using hbegun)]
      refine ⟨fun hs => (List.not_mem_nil hs).elim, fun ⟨hs, hle⟩ => absurd hle ?_⟩
      rcases List.mem_cons.mp hs with rfl | hs
      · exact hbegun
      · exact fun hle => hbegun (Nat.le_trans (hx s hs) hle)

/-- The last statement that starts at or before a place is the innermost one there, or one within
it that has ended. -/
theorem Laid.found {low high : Nat} {stretches : List Stretch} (h : Laid low high stretches)
    {place : Nat} (hhas : ∃ s ∈ stretches, s.Has place) :
    ∃ s t, IsInnermost stretches place s ∧ IsLastBegun stretches place t ∧
      (stretches.takeWhile (·.first ≤ place)).getLast? = some t ∧
      (t = s ∨ t.Within s ∧ t.behind ≤ place) := by
  have hmem : ∀ {s}, s ∈ stretches.takeWhile (·.first ≤ place) ↔
      s ∈ stretches ∧ s.first ≤ place := mem_takeWhile_begun h.sorted
  have hnested := h.nested.sublist (List.takeWhile_sublist (·.first ≤ place))
  have hsorted := h.sorted.sublist (List.takeWhile_sublist (·.first ≤ place))
  -- what has the place starts at or before it; the last of these is the innermost one
  have hbegun : ∃ s ∈ stretches.takeWhile (·.first ≤ place), s.Has place := by
    obtain ⟨s, hs, hplace⟩ := hhas
    exact ⟨s, hmem.mpr ⟨hs, hplace.1⟩, hplace⟩
  obtain ⟨before, s, after, hsplit, hs, hafter⟩ := exists_last hbegun
  rw [hsplit] at hmem hnested hsorted
  rw [hsplit]
  obtain ⟨-, hnext, hcross⟩ := List.pairwise_append.mp hnested
  have hinnermost : IsInnermost stretches place s := by
    refine ⟨(hmem.mp (List.mem_append_right _ List.mem_cons_self)).1, hs, fun t ht hplace => ?_⟩
    rcases List.mem_append.mp (hmem.mpr ⟨ht, hplace.1⟩) with hbefore | hrest
    · rcases hcross t hbefore s List.mem_cons_self with hapart | hwithin
      · exact absurd (Nat.lt_of_lt_of_le hplace.2 (Nat.le_trans hapart hs.1)) (Nat.lt_irrefl _)
      · exact hwithin
    · rcases List.mem_cons.mp hrest with rfl | hlater
      · exact ⟨Nat.le_refl _, Nat.le_refl _⟩
      · exact absurd hplace (hafter t hlater)
  -- behind it only statements within it start, and these do not reach the place
  have hsome : (s :: after).getLast? = some _ := List.getLast?_eq_some_getLast (by simp)
  obtain ⟨t, ht⟩ : ∃ t, (s :: after).getLast? = some t := ⟨_, hsome⟩
  have hlast : (before ++ s :: after).getLast? = some t := by
    rw [List.getLast?_append, ht, Option.some_or]
  have htmem : t ∈ s :: after := List.mem_of_getLast? ht
  have hlatest : IsLastBegun stretches place t := by
    obtain ⟨hts, htplace⟩ := hmem.mp (List.mem_append_right before htmem)
    refine ⟨hts, htplace, fun u hu hle => ?_⟩
    obtain ⟨start, hstart⟩ := List.getLast?_eq_some_iff.mp hlast
    have hu' := hmem.mpr ⟨hu, hle⟩
    rw [hstart] at hsorted hu'
    rcases List.mem_append.mp hu' with hu' | hu'
    · exact (List.pairwise_append.mp hsorted).2.2 u hu' t (List.mem_singleton_self t)
    · exact Nat.le_of_eq (congrArg Stretch.first (List.mem_singleton.mp hu'))
  refine ⟨s, t, hinnermost, hlatest, hlast, ?_⟩
  rcases List.mem_cons.mp htmem with rfl | hlater
  · exact .inl rfl
  · have hended : t.behind ≤ place :=
      Nat.le_of_not_lt fun hlt => hafter t hlater ⟨hlatest.begun, hlt⟩
    rcases (List.pairwise_cons.mp hnext).1 t hlater with hapart | hwithin
    · exact absurd (Nat.lt_of_lt_of_le hs.2 (Nat.le_trans hapart hlatest.begun)) (Nat.lt_irrefl _)
    · exact .inr ⟨hwithin, hended⟩

/-! ## Methods -/

/-- A lookup goes through the marks of the stretches that start at or before the place. -/
theorem lineFor_eq {code : MethodCode} {stretches : List Stretch}
    (hlines : code.lines = stretches.map Stretch.mark)
    (hcount : ∀ s ∈ stretches, s.first < UInt32.size) (place : Nat) :
    code.lineFor place
      = ((stretches.takeWhile (·.first ≤ place)).getLast?).map fun s => startLine s.stmt := by
  have htake : (stretches.map Stretch.mark).takeWhile (·.place.toNat ≤ place)
      = (stretches.takeWhile (·.first ≤ place)).map Stretch.mark := by
    clear hlines
    induction stretches with
    | nil => rfl
    | cons s rest ih =>
      obtain ⟨hs, hrest⟩ := List.forall_mem_cons.mp hcount
      have hplace : s.mark.place.toNat = s.first := toNat_placeNumber hs
      rw [List.map_cons, List.takeWhile_cons, List.takeWhile_cons, hplace, ih hrest]
      split <;> rfl
  rw [MethodCode.lineFor, hlines, htake, List.getLast?_map, Option.map_map]
  rfl

/-- A lookup in the code of a method, at any instruction but the return at the end of a method
without a value, finds the line of the last statement that starts at or before the place. This is
the innermost statement that has the instruction, or a statement within that one that has ended. -/
theorem lineFor_finds {file : String} {m : Method} {code : MethodCode}
    (hcode : methodCode file m = .ok code) (hsize : code.code.size < UInt32.size) {place : Nat}
    (hplace : place < code.code.size)
    (hbody : code.ret.isVoid = true → place + 1 < code.code.size) :
    (methodStretches code.ret m).map Stretch.stmt = blockStmts m.body ∧
      (∀ s ∈ methodStretches code.ret m, s.HasCode file code.code code.ret) ∧
      ∃ s t, IsInnermost (methodStretches code.ret m) place s ∧
        IsLastBegun (methodStretches code.ret m) place t ∧
        code.lineFor place = some (startLine t.stmt) ∧ (t = s ∨ t.Within s ∧ t.behind ≤ place) := by
  have hlines := lines_methodCode hcode
  refine ⟨stmts_methodStretches code.ret m, hasCode_methodStretches hcode, ?_⟩
  obtain ⟨params, ret, body, last, -, -, hmade, hlast, rfl⟩ := methodCode_eq_ok hcode
  simp only [List.size_toArray, List.length_append] at hsize hplace hbody
  -- only the return at the end is not part of the body
  have hin : place < 0 + body.code.length := by
    rw [endCode_eq_ok hlast] at hplace hbody
    split at hplace
    · have hbody := hbody ‹_›
      rw [if_pos ‹_›] at hbody
      simp only [List.length_singleton] at hbody
      omega
    · simpa using hplace
  have hlaid := laid_bodyStretches hmade
  obtain ⟨s, t, hs, ht, hfound, hor⟩ :=
    hlaid.found (exists_has_of_bodyCode hmade (Nat.zero_le place) hin)
  refine ⟨s, t, hs, ht, ?_, hor⟩
  rw [lineFor_eq hlines (fun u hu => ?_) place]
  · exact congrArg (Option.map fun s => startLine s.stmt) hfound
  · obtain ⟨-, hle, hhigh⟩ := hlaid.bounds u hu
    omega

/-- The span of a statement that starts on a line. -/
def spanOn (line : Nat) : Span := ⟨⟨0, line, 1⟩, default⟩

/-- A statement `puts 1` on the second line. -/
def putsStmt : Stmt := .puts (.int 1 ⟨default, some .int⟩) (spanOn 2)

/-- A loop `while false` on the first line, with the statement on the second line in it. -/
def spinStmt : Stmt :=
  .loop (.bool false ⟨default, some .boolean⟩) (.mk [putsStmt] default) (spanOn 1)

/-- A method that consists of the loop. -/
def spinMethod : Method where
  name := ⟨"spin", default⟩
  isStatic := false
  params := []
  ret := none
  retType := some .void
  body := .mk [spinStmt] default
  span := default

/-- The jump back at place 4 is an instruction of the loop, which starts on line 1. The lookup finds
line 2, that of the last statement in it. -/
theorem spinMethod_lineFor :
    ∃ code s t, methodCode "spin" spinMethod = .ok code ∧
      code.code[4]? = some (.jump 0) ∧
      IsInnermost (methodStretches code.ret spinMethod) 4 s ∧ s.stmt = spinStmt ∧
      startLine s.stmt = 1 ∧
      IsLastBegun (methodStretches code.ret spinMethod) 4 t ∧ t.Within s ∧ t.behind ≤ 4 ∧
      code.lineFor 4 = some 2 := by
  have hmade : (methodCode "spin" spinMethod).toOption.any (fun code =>
      code.ret = .void && code.code.size = 6 && code.code[4]? = some (.jump 0) &&
        code.lineFor 4 = some 2) = true := by
    decide +kernel
  cases hcode : methodCode "spin" spinMethod with
  | error fault =>
    rw [hcode] at hmade
    cases hmade
  | ok code =>
    simp only [hcode, Except.toOption, Option.any_some, Bool.and_eq_true,
      decide_eq_true_eq] at hmade
    obtain ⟨⟨⟨hret, hsize⟩, hjump⟩, hline⟩ := hmade
    have hstretches : methodStretches code.ret spinMethod
        = [⟨spinStmt, 0, 5⟩, ⟨putsStmt, 2, 4⟩] := by
      rw [hret]
      rfl
    obtain ⟨-, -, s, t, hs, ht, hfound, hor⟩ :=
      lineFor_finds hcode (by rw [hsize]; decide) (show 4 < code.code.size by rw [hsize]; decide)
        (fun _ => by rw [hsize]; decide)
    -- of the two statements only the loop has the instruction at place 4
    have hloop : s = ⟨spinStmt, 0, 5⟩ := by
      have hmem := hs.mem
      rw [hstretches, List.mem_cons, List.mem_singleton] at hmem
      rcases hmem with rfl | rfl
      · rfl
      · exact absurd hs.has.2 (by decide)
    have hended : t.Within s ∧ t.behind ≤ 4 := by
      refine hor.resolve_left fun heq => ?_
      rw [heq, hloop, hline] at hfound
      exact absurd hfound (by decide)
    exact ⟨code, s, t, rfl, hjump, hs, by rw [hloop], by rw [hloop]; rfl, ht, hended.1, hended.2,
      hline⟩

end StackScript.Code
