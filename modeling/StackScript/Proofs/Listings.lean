import StackScript.Proofs.Branching
import StackScript.Proofs.ListingRows
import StackScript.Proofs.Narrowing

/-!
# Listings

The line table of a method has one mark for each statement, at the place where the code of the
statement starts. A statement has an instruction before those of the statements in it, unless it is
a conditional without a branch, which cannot be written; so these places rise strictly (`Rising`),
and each of them is a place in the code. The table has them narrowed to 32 bits. Up to there it is
in order, and the listing of the method has all instructions and all marks; in general it has all
instructions, and the marks as far as they are in order (`listing_loses_nothing`). A method of more
than 2 ^ 31 short statements has code, but its table is not in order, and its listing not complete
(`long_is_narrowed`).
-/

namespace StackScript.Code

open StackScript.Machine StackScript.Source StackScript.Syntax StackScript.Typing

/-! ## Statements start one behind the other -/

theorem operatorSize_pos (op : BinaryOp) : 0 < operatorSize op := by
  cases op <;> decide

/-- An expression has an instruction. -/
theorem exprSize_pos (e : Expr) : 0 < exprSize e := by
  cases e with
  | binary op left right note => exact Nat.add_pos_right _ (operatorSize_pos op)
  | _ => exact Nat.succ_pos _

/-- The stretches start between two places, each one behind where the one before it starts. -/
structure Rising (low high : Nat) (stretches : List Stretch) : Prop where
  bounds : ∀ s ∈ stretches, low ≤ s.first ∧ s.first < high
  strict : stretches.Pairwise fun s t => s.first < t.first

namespace Rising

variable {low mid high : Nat} {xs ys : List Stretch}

theorem nil (low high : Nat) : Rising low high [] := ⟨List.forall_mem_nil _, .nil⟩

theorem mono (h : Rising low high xs) {low' high' : Nat} (hlow : low' ≤ low)
    (hhigh : high ≤ high') : Rising low' high' xs := by
  refine ⟨?_, h.strict⟩
  intro s hs
  obtain ⟨hfirst, hlast⟩ := h.bounds s hs
  exact ⟨Nat.le_trans hlow hfirst, Nat.lt_of_lt_of_le hlast hhigh⟩

/-- Stretches with others behind them. -/
theorem append (h : Rising low mid xs) (h' : Rising mid high ys) (hlow : low ≤ mid)
    (hhigh : mid ≤ high) : Rising low high (xs ++ ys) := by
  constructor
  · exact List.forall_mem_append.mpr
      ⟨(h.mono (Nat.le_refl _) hhigh).bounds, (h'.mono hlow (Nat.le_refl _)).bounds⟩
  · rw [List.pairwise_append]
    refine ⟨h.strict, h'.strict, ?_⟩
    intro s hs t ht
    exact Nat.lt_of_lt_of_le (h.bounds s hs).2 (h'.bounds t ht).1

/-- A statement before those that start behind its first instruction. -/
theorem lead (h : Rising (low + 1) high xs) (hlt : low < high) (stmt : Stmt) (behind : Nat) :
    Rising low high (⟨stmt, low, behind⟩ :: xs) := by
  constructor
  · exact List.forall_mem_cons.mpr
      ⟨⟨Nat.le_refl _, hlt⟩, (h.mono (Nat.le_succ _) (Nat.le_refl _)).bounds⟩
  · rw [List.pairwise_cons]
    refine ⟨?_, h.strict⟩
    intro t ht
    exact (h.bounds t ht).1

theorem single (hlt : low < high) (stmt : Stmt) (behind : Nat) :
    Rising low high [⟨stmt, low, behind⟩] := (nil _ _).lead hlt stmt behind

end Rising

mutual

/-- The stretches of a statement start at its instructions. -/
theorem rising_stmtStretches : ∀ (stmt : Stmt) (place : Nat), stmt.branched = true →
    Rising place (place + stmtSize stmt) (stmtStretches place stmt)
  | .expr value _, _, _ =>
    .single (Nat.lt_add_of_pos_right (Nat.add_pos_left (exprSize_pos value) _)) _ _
  | .assign _ value _, _, _ | .ret (some value) _, _, _ | .puts value _, _, _
  | .raise value _, _, _ => .single (Nat.lt_add_of_pos_right (Nat.succ_pos _)) _ _
  | .ret none _, _, _ => .single (Nat.lt_add_of_pos_right Nat.one_pos) _ _
  | .cond chain span, place, h => by
    obtain ⟨hbranch, hchain⟩ := Bool.and_eq_true_iff.mp h
    -- the first condition comes before every statement of the branches
    have hrest := rising_chainStretches chain place hchain
    rw [hbranch] at hrest
    apply hrest.lead
    cases chain with
    | branch condition body rest =>
      rw [chainSize]
      omega
    | done => cases hbranch
    | otherwise body => cases hbranch
  | .loop condition body span, place, h => by
    have hbody := rising_blockStretches body (place + exprSize condition + 1) h
    apply Rising.lead
    · apply hbody.mono
      · omega
      · rw [stmtSize]
        omega
    · rw [stmtSize]
      omega

theorem rising_blockStretches : ∀ (block : Block) (place : Nat), block.branched = true →
    Rising place (place + blockSize block) (blockStretches place block)
  | .mk stmts _, place, h => rising_stmtsStretches stmts place h

theorem rising_stmtsStretches : ∀ (stmts : List Stmt) (place : Nat), allBranched stmts = true →
    Rising place (place + stmtsSize stmts) (stmtsStretches place stmts)
  | [], _, _ => .nil _ _
  | stmt :: stmts, place, h => by
    obtain ⟨hstmt, hstmts⟩ := Bool.and_eq_true_iff.mp h
    have hfirst := rising_stmtStretches stmt place hstmt
    have hrest := rising_stmtsStretches stmts (place + stmtSize stmt) hstmts
    rw [stmtsSize, ← Nat.add_assoc]
    exact hfirst.append hrest (Nat.le_add_right _ _) (Nat.le_add_right _ _)

/-- Behind a condition, all stretches of the branches start behind the first place. -/
theorem rising_chainStretches : ∀ (chain : Chain) (place : Nat), chain.branched = true →
    Rising (place + chain.isBranch.toNat) (place + chainSize chain) (chainStretches place chain)
  | .done, _, _ => .nil _ _
  | .otherwise body, place, h => rising_blockStretches body place h
  | .branch condition body rest, place, h => by
    obtain ⟨hbody, hrest⟩ := Bool.and_eq_true_iff.mp h
    have hfirst := rising_blockStretches body (place + exprSize condition + 1) hbody
    have hlater := rising_chainStretches rest
      (place + exprSize condition + 1 + blockSize body + 1) hrest
    -- the later branches stand behind the jump that ends this one
    have hbefore : Rising (place + 1) (place + exprSize condition + 1 + blockSize body + 1)
        (blockStretches (place + exprSize condition + 1) body) := by
      apply hfirst.mono
      · omega
      · exact Nat.le_succ _
    have hbehind : Rising (place + exprSize condition + 1 + blockSize body + 1)
        (place + chainSize (.branch condition body rest))
        (chainStretches (place + exprSize condition + 1 + blockSize body + 1) rest) := by
      apply hlater.mono
      · exact Nat.le_add_right _ _
      · rw [chainSize]
        omega
    apply hbefore.append hbehind
    · omega
    · rw [chainSize]
      omega

end

section

variable {file : String} {ret : Ty} {stmts : List Stmt} {slots : Slots} {place : Nat}
  {emitted : Emitted}

/-- The stretches of a body start at its instructions. -/
theorem rising_bodyStretches (hcode : bodyCode file ret slots place stmts = .ok emitted)
    (hbranched : allBranched stmts = true) :
    Rising place (place + emitted.code.length) (bodyStretches ret place stmts) := by
  induction stmts generalizing slots place emitted with
  | nil => exact .nil _ _
  | cons stmt rest ih =>
    obtain ⟨hstmt, hrest⟩ := Bool.and_eq_true_iff.mp hbranched
    rcases isLast_cases stmt rest with hlast | ⟨value, span, rfl, rfl⟩
    · rw [bodyCode_cons hlast] at hcode
      simp only [bind_eq_ok, pure_eq_ok] at hcode
      obtain ⟨first, hfirst, others, hothers, rfl⟩ := hcode
      have hlater := ih hothers hrest
      rw [length_stmtCode stmt hfirst] at hlater
      rw [bodyStretches_cons hlast, code_append, List.length_append, length_stmtCode stmt hfirst,
        ← Nat.add_assoc]
      exact (rising_stmtStretches stmt place hstmt).append hlater (Nat.le_add_right _ _)
        (Nat.le_add_right _ _)
    · rw [bodyCode] at hcode
      rw [bodyStretches]
      split at hcode
      · rename_i hvoid
        rw [if_pos hvoid, length_stmtCode _ hcode]
        exact rising_stmtStretches _ place hstmt
      · rename_i hvoid
        simp only [bind_eq_ok, pure_eq_ok] at hcode
        obtain ⟨made, -, rfl⟩ := hcode
        rw [if_neg hvoid, code_markLine, code_plain, List.length_append, List.length_singleton]
        apply Rising.single
        omega

end

/-- The stretches of a method start at its instructions. -/
theorem rising_methodStretches {file : String} {m : Method} {code : MethodCode}
    (hcode : methodCode file m = .ok code) (hbranched : m.body.branched = true) :
    Rising 0 code.code.size (methodStretches code.ret m) := by
  obtain ⟨params, ret, body, last, -, -, hbody, -, rfl⟩ := methodCode_eq_ok hcode
  have hstmts : allBranched m.body.stmts = true := by
    rw [← hbranched]
    cases m.body
    rfl
  have hrising := rising_bodyStretches hbody hstmts
  apply hrising.mono (Nat.le_refl _)
  rw [List.size_toArray, List.length_append, Nat.zero_add]
  exact Nat.le_add_right _ _

/-! ## Methods -/

/-- The first line of the listing of a method. -/
def MethodCode.headline (method : MethodCode) : String :=
  "  def " ++ method.signature.text ++ " (locals " ++ toString method.locals ++ ")\n"

/-- The listing of a class has those of its methods. -/
theorem listing_of_mem {file : ClassFile} {method : MethodCode} (h : method ∈ file.methods) :
    ∃ before after, file.listing = before ++ "\n" ++ method.listing ++ after := by
  obtain ⟨earlier, later, hsplit⟩ := List.append_of_mem h
  obtain ⟨head, hlisting⟩ : ∃ head, file.listing =
      head ++ String.join (file.methods.map fun method => "\n" ++ method.listing) := ⟨_, rfl⟩
  rw [hlisting, hsplit, List.map_append, List.map_cons, String.join_append, String.join_cons]
  refine ⟨head ++ String.join (earlier.map fun method => "\n" ++ method.listing),
    String.join (later.map fun method => "\n" ++ method.listing), ?_⟩
  simp only [String.append_assoc]

/-- The listing of a method has its instructions, and its marks as far as they rise. -/
theorem listing_rows (code : MethodCode) :
    ∃ shown left rows, code.lines = shown ++ left ∧ Interleaved 0 shown code.code.toList rows ∧
      code.listing = code.headline ++ String.join (rows.map Row.text) ∧
      (left = [] ↔ MarksWithin 0 code.code.size code.lines) := by
  obtain ⟨shown, left, rows, hlines, hrows, htext, hleft⟩ :=
    exists_rows code.code.toList 0 code.lines
  rw [Nat.zero_add, Array.length_toList] at hleft
  refine ⟨shown, left, rows, hlines, hrows, ?_, hleft⟩
  unfold MethodCode.listing
  rw [htext]
  rfl

section

variable {file : String} {m : Method} {code : MethodCode}

/-- A line table has the places as they are when it can count them, and only then. -/
theorem marks_keep_iff (stretches : List Stretch) :
    (∀ s ∈ stretches, s.mark.place.toNat = s.first) ↔ ∀ s ∈ stretches, s.first < UInt32.size :=
  forall₂_congr fun _ _ => toNat_ofNat32_iff

/-- Marks of stretches that start at their instructions rise strictly, if they can be counted. -/
theorem marks_of_rising {high : Nat} {stretches : List Stretch} (h : Rising 0 high stretches)
    (hcount : ∀ s ∈ stretches, s.first < UInt32.size) :
    (stretches.map Stretch.mark).Pairwise (fun a b => a.place.toNat < b.place.toNat) ∧
      ∀ mark ∈ stretches.map Stretch.mark, mark.place.toNat < high := by
  have hplaces := (marks_keep_iff stretches).mpr hcount
  constructor
  · rw [List.pairwise_map]
    refine h.strict.imp_of_mem fun {s t} hs ht hlt => ?_
    rwa [hplaces s hs, hplaces t ht]
  · rw [List.forall_mem_map]
    intro s hs
    rw [hplaces s hs]
    exact (h.bounds s hs).2

/-- The listing of a method has all its marks, if these rise strictly within the code. -/
theorem listing_of_strict
    (hsorted : code.lines.Pairwise fun a b => a.place.toNat < b.place.toNat)
    (hbelow : ∀ mark ∈ code.lines, mark.place.toNat < code.code.size) :
    ∃ rows, Interleaved 0 code.lines code.code.toList rows ∧
      code.listing = code.headline ++ String.join (rows.map Row.text) := by
  obtain ⟨shown, left, rows, hlines, hrows, htext, hleft⟩ := listing_rows code
  have hwithin : MarksWithin 0 code.code.size code.lines :=
    ⟨fun mark hmark => ⟨Nat.zero_le _, hbelow mark hmark⟩, hsorted.imp Nat.le_of_lt⟩
  rw [hleft.mpr hwithin, List.append_nil] at hlines
  exact ⟨rows, hlines ▸ hrows, htext⟩

/-- **A listing loses nothing that the line table has in order.** For every method that code is made
for, the line table has one mark for each statement of the body and of the statements in it, in
source order, made at the place where the code of the statement starts. If no conditional is without
a branch, these places rise strictly and are places of the code. The table has them as they are
exactly if they can be counted with 32 bits. Then the listing of the method has every instruction
once, in order, and every mark once, directly above the instruction at its place. In any case it has
every instruction, and the marks of the table from the first one on; all of them exactly if their
places rise within the code. The rows tell their instructions, places and lines, and the listing of
a class has those of its methods. In units that were read no conditional is without a branch. -/
theorem listing_loses_nothing (hcode : methodCode file m = .ok code) :
    code.lines = (methodStretches code.ret m).map Stretch.mark ∧
    (methodStretches code.ret m).map Stretch.stmt = blockStmts m.body ∧
    (∀ s ∈ methodStretches code.ret m, s.HasCode file code.code code.ret) ∧
    (m.body.branched = true → Rising 0 code.code.size (methodStretches code.ret m)) ∧
    ((∀ s ∈ methodStretches code.ret m, s.mark.place.toNat = s.first) ↔
      ∀ s ∈ methodStretches code.ret m, s.first < UInt32.size) ∧
    (m.body.branched = true → (∀ s ∈ methodStretches code.ret m, s.first < UInt32.size) →
      code.lines.Pairwise (fun a b => a.place.toNat < b.place.toNat) ∧
      (∀ mark ∈ code.lines, mark.place.toNat < code.code.size) ∧
      ∃ rows, Interleaved 0 code.lines code.code.toList rows ∧
        code.listing = code.headline ++ String.join (rows.map Row.text)) ∧
    (∃ shown left rows, code.lines = shown ++ left ∧ Interleaved 0 shown code.code.toList rows ∧
      code.listing = code.headline ++ String.join (rows.map Row.text) ∧
      (left = [] ↔ MarksWithin 0 code.code.size code.lines)) ∧
    (∀ row other : Row, row.text = other.text ↔ row.Alike other) ∧
    (∀ made : ClassFile, code ∈ made.methods →
      ∃ before after, made.listing = before ++ "\n" ++ code.listing ++ after) ∧
    ∀ (batch : List Program) (externals : Externals) (cls : String),
      (∀ program ∈ batch, ∃ explicitPackages source text,
        readUnit explicitPackages source text = .ok program) →
      (file, Declaration.method cls m) ∈ batchDeclarations (infer externals batch).batch →
      m.body.branched = true := by
  have hlines := lines_methodCode hcode
  refine ⟨hlines, stmts_methodStretches code.ret m, hasCode_methodStretches hcode,
    rising_methodStretches hcode, marks_keep_iff _, ?_, listing_rows code,
    fun _ _ => Row.text_eq_iff, fun _ hmade => listing_of_mem hmade,
    fun _ _ _ hread hm => branched_of_read hread hm⟩
  intro hbranched hcount
  have hmarks := marks_of_rising (rising_methodStretches hcode hbranched) hcount
  rw [← hlines] at hmarks
  obtain ⟨hsorted, hbelow⟩ := hmarks
  exact ⟨hsorted, hbelow, listing_of_strict hsorted hbelow⟩

end

/-- A unit of a conditional with a statement in it. -/
def nestedText : String := "if true\n  puts 1\nend\n"

/-- Its script has two marks, and its listing two remarks among the instructions. -/
theorem listing_of_nestedText :
    ∃ program file cls m code, readUnit false "input" nestedText = .ok program ∧
      (file, Declaration.method cls m) ∈
        batchDeclarations (infer (fun _ => none) [program]).batch ∧
      methodCode file m = .ok code ∧ code.lines = [⟨0, 1⟩, ⟨2, 2⟩] ∧ code.code.size = 6 ∧
      ∃ rows, Interleaved 0 code.lines code.code.toList rows ∧
        code.listing = code.headline ++ String.join (rows.map Row.text) := by
  have hmade : (readUnit false "input" nestedText).toOption.any (fun program =>
      (batchMethods (infer (fun _ => none) [program]).batch).any fun place =>
        (methodCode place.1 place.2.2).toOption.any fun code =>
          code.lines = [⟨0, 1⟩, ⟨2, 2⟩] && code.code.size = 6) = true := by
    decide +kernel
  obtain ⟨program, hread, hmethods⟩ := exists_of_any hmade
  obtain ⟨⟨file, cls, m⟩, hplace, hcodes⟩ := List.any_eq_true.mp hmethods
  obtain ⟨code, hcode, hcounts⟩ := exists_of_any hcodes
  simp only [Bool.and_eq_true, decide_eq_true_eq] at hcounts
  obtain ⟨hlines, hsize⟩ := hcounts
  have hunits : ∀ program' ∈ [program], ∃ explicitPackages source text,
      readUnit explicitPackages source text = .ok program' :=
    List.forall_mem_singleton.mpr ⟨false, "input", nestedText, hread⟩
  have hm := mem_batchMethods.mp hplace
  obtain ⟨-, -, -, hrising, -, hlisting, -, -, -, hbranches⟩ := listing_loses_nothing hcode
  have hbranched := hbranches _ _ _ hunits hm
  have hcount : ∀ s ∈ methodStretches code.ret m, s.first < UInt32.size := by
    intro s hs
    have hbelow := ((hrising hbranched).bounds s hs).2
    rw [hsize] at hbelow
    exact Nat.lt_trans hbelow (by decide)
  obtain ⟨-, -, rows, hrows, htext⟩ := hlisting hbranched hcount
  exact ⟨program, file, cls, m, code, hread, hm, hcode, hlines, hsize, rows, hrows, htext⟩

/-! ## Marks that are lost -/

/-- A statement `puts 7` on the first line. -/
def sevenStmt : Stmt := .puts (.int 7 ⟨default, some .int⟩) (spanOn 1)

/-- A method of a number of them. -/
def longMethod (count : Nat) : Method where
  name := ⟨"long", default⟩
  isStatic := false
  params := []
  ret := none
  retType := some .void
  body := .mk (List.replicate count sevenStmt) default
  span := default

/-- What is made for the method: two instructions for each statement. -/
def longCode (count : Nat) : MethodCode where
  name := "long"
  params := []
  ret := .void
  locals := 0
  code := ((List.replicate count [Instr.pushInt 7, .puts]).flatten ++ [Instr.retVoid]).toArray
  lines := (List.range' 0 count 2).map fun place => ⟨placeNumber place, 1⟩

theorem bodyCode_long (count place : Nat) :
    bodyCode "Long" .void [] place (List.replicate count sevenStmt) = .ok
      ⟨(List.replicate count [.pushInt 7, .puts]).flatten,
        (List.range' place count 2).map fun place => ⟨placeNumber place, 1⟩, []⟩ := by
  induction count generalizing place with
  | zero => rfl
  | succ count ih =>
    have hstmt : isExpr sevenStmt = true → List.replicate count sevenStmt ≠ [] :=
      fun h => by cases h
    rw [List.replicate_succ, bodyCode_cons hstmt]
    simp only [bind_eq_ok, pure_eq_ok]
    exact ⟨_, rfl, _, ih _, rfl⟩

/-- Code is made for the method whatever the number of statements is. -/
theorem methodCode_longMethod (count : Nat) :
    methodCode "Long" (longMethod count) = .ok (longCode count) := by
  have hbody := bodyCode_long count 0
  simp only [methodCode, bind_eq_ok]
  exact ⟨_, rfl, _, rfl, _, hbody, _, rfl, rfl⟩

theorem mem_lines_longCode {count : Nat} {mark : LineMark} (h : mark ∈ (longCode count).lines) :
    ∃ i < count, mark.place = placeNumber (2 * i) := by
  obtain ⟨place, hplace, rfl⟩ := List.mem_map.mp h
  obtain ⟨i, hi, rfl⟩ := List.mem_range'.mp hplace
  exact ⟨i, hi, by rw [Nat.zero_add]⟩

/-- With one statement more than 32 bits can count, the last mark has the place of the first. -/
theorem not_sorted_longCode {count : Nat} (h : 2 ^ 31 < count) :
    ¬ (longCode count).lines.Pairwise fun a b => a.place.toNat ≤ b.place.toNat := by
  intro hsorted
  have hlength : (longCode count).lines.length = count := by
    rw [longCode, List.length_map, List.length_range']
  have hplace : ∀ (i : Nat) (hi : i < (longCode count).lines.length),
      (longCode count).lines[i].place = placeNumber (2 * i) := by
    intro i hi
    simp [longCode]
  have hle := List.pairwise_iff_getElem.mp hsorted 1 (2 ^ 31) (by rw [hlength]; omega)
    (by rw [hlength]; exact h) (by decide)
  rw [hplace, hplace] at hle
  exact absurd hle (by decide)

/-- The marks of the method rise strictly within its code if 32 bits can count its places. -/
theorem strict_longCode {count : Nat} (h : count ≤ 2 ^ 31) :
    (longCode count).lines.Pairwise (fun a b => a.place.toNat < b.place.toNat) ∧
      ∀ mark ∈ (longCode count).lines, mark.place.toNat < (longCode count).code.size := by
  have hplace : ∀ i < count, (placeNumber (2 * i)).toNat = 2 * i := by
    intro i hi
    apply toNat_placeNumber
    have hsize : UInt32.size = 2 * 2 ^ 31 := rfl
    omega
  constructor
  · rw [longCode, List.pairwise_map]
    refine (List.pairwise_lt_range' (s := 0) (n := count) 2 (by decide)).imp_of_mem ?_
    intro a b ha hb hlt
    obtain ⟨i, hi, rfl⟩ := List.mem_range'.mp ha
    obtain ⟨j, hj, rfl⟩ := List.mem_range'.mp hb
    rw [Nat.zero_add, Nat.zero_add] at hlt ⊢
    rwa [hplace i hi, hplace j hj]
  · intro mark hmark
    obtain ⟨i, hi, heq⟩ := mem_lines_longCode hmark
    have hsize : (longCode count).code.size = 2 * count + 1 := by
      simp [longCode, Nat.mul_comm]
    rw [heq, hplace i hi, hsize]
    omega

/-- The line table of the method is in order, and its listing has all its marks, for up to 2 ^ 31
statements and for no more. -/
theorem long_is_narrowed (count : Nat) :
    methodCode "Long" (longMethod count) = .ok (longCode count) ∧
      ((longCode count).lines.Pairwise (fun a b => a.place.toNat < b.place.toNat) ↔
        count ≤ 2 ^ 31) ∧
      ((∃ rows, Interleaved 0 (longCode count).lines (longCode count).code.toList rows) ↔
        count ≤ 2 ^ 31) := by
  refine ⟨methodCode_longMethod count, ⟨fun h => ?_, fun h => (strict_longCode h).1⟩,
    fun ⟨rows, h⟩ => ?_, fun h => ?_⟩
  · exact Nat.le_of_not_lt fun hlt => not_sorted_longCode hlt (h.imp Nat.le_of_lt)
  · exact Nat.le_of_not_lt fun hlt => not_sorted_longCode hlt h.marksWithin.sorted
  · obtain ⟨hsorted, hbelow⟩ := strict_longCode h
    obtain ⟨rows, hrows, -⟩ := listing_of_strict hsorted hbelow
    exact ⟨rows, hrows⟩

/-- A method of a conditional without a branch, and then `puts 7`. -/
def idleMethod : Method where
  name := ⟨"idle", default⟩
  isStatic := false
  params := []
  ret := none
  retType := some .void
  body := .mk [.cond .done (spanOn 1), sevenStmt] default
  span := default

/-- A conditional without a branch has no instruction, and its mark the place of the next one. -/
theorem idleMethod_marks :
    ∃ code, methodCode "Idle" idleMethod = .ok code ∧ code.lines = [⟨0, 1⟩, ⟨0, 1⟩] ∧
      ¬ code.lines.Pairwise fun a b => a.place.toNat < b.place.toNat :=
  ⟨_, rfl, rfl, by decide⟩

end StackScript.Code
