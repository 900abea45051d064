import StackScript.Proofs.Following

/-!
# Depths of the stack

What an instruction takes from the stack and leaves on it, and where it goes on, without looking at
values. A chart gives each place of a code the depth of the stack there; it charts an instruction
when the instruction finds what it takes and every place it can go on at has the depth that it
leaves (`Charted`). Pieces of code are charted for themselves, whatever stands around them, and put
together (`Balanced`): one piece behind the other, and around jumps.
-/

namespace StackScript.Code

open StackScript.Source StackScript.Syntax StackScript.Machine

/-! ## What instructions do to the stack -/

namespace Instr

/-- The number of values that an instruction takes from the stack. -/
def pops : Instr → Nat
  | pushInt _ | pushBool _ | pushStr _ | load _ | jump _ | retVoid => 0
  | store _ | pop | neg | not | length | jumpIfFalse _ | puts | raise | ret => 1
  | add | sub | mul | div | mod | concat | eq | ne | lt | le | gt | ge | index => 2
  | call _ _ argc => argc.toNat

/-- The number of values that an instruction leaves on the stack, `given` being that of a call. -/
def pushes (given : Nat) : Instr → Nat
  | store _ | pop | jump _ | jumpIfFalse _ | puts | raise | ret | retVoid => 0
  | call _ _ _ => given
  | _ => 1

/-- The places where the machine can go on after an instruction at `place`. -/
def nexts (place : Nat) : Instr → List Nat
  | jump target => [target.toNat]
  | jumpIfFalse target => [place + 1, target.toNat]
  | raise | ret | retVoid => []
  | _ => [place + 1]

section

variable (place given : Nat) (target : UInt32) (cls method : String) (argc : UInt16)

@[simp] theorem nexts_jump : (jump target).nexts place = [target.toNat] := rfl

@[simp] theorem nexts_jumpIfFalse :
    (jumpIfFalse target).nexts place = [place + 1, target.toNat] := rfl

@[simp] theorem nexts_call : (call cls method argc).nexts place = [place + 1] := rfl

@[simp] theorem pops_jump : (jump target).pops = 0 := rfl

@[simp] theorem pops_jumpIfFalse : (jumpIfFalse target).pops = 1 := rfl

@[simp] theorem pops_call : (call cls method argc).pops = argc.toNat := rfl

@[simp] theorem pushes_jump : (jump target).pushes given = 0 := rfl

@[simp] theorem pushes_jumpIfFalse : (jumpIfFalse target).pushes given = 0 := rfl

@[simp] theorem pushes_call : (call cls method argc).pushes given = given := rfl

end

/-- The instruction goes on with the next one and is no call. -/
def isPlain : Instr → Bool
  | jump _ | jumpIfFalse _ | call _ _ _ | raise | ret | retVoid => false
  | _ => true

/-- A plain instruction goes on at the next place only. -/
theorem nexts_of_isPlain {instr : Instr} (h : instr.isPlain = true) (place : Nat) :
    instr.nexts place = [place + 1] := by
  cases instr <;> first | rfl | cases h

theorem pushes_of_isPlain {instr : Instr} (h : instr.isPlain = true) (given : Nat) :
    instr.pushes given = instr.pushes 0 := by
  cases instr <;> first | rfl | cases h

end Instr

/-! ## Along a list -/

/-- Something holds of each item of a list at its place, the first one being at `place`. -/
def Along {α : Type} (holds : Nat → α → Prop) : Nat → List α → Prop
  | _, [] => True
  | place, x :: xs => holds place x ∧ Along holds (place + 1) xs

section

variable {α : Type} {holds : Nat → α → Prop}

@[simp] theorem along_nil (place : Nat) : Along holds place [] := trivial

@[simp] theorem along_cons (place : Nat) (x : α) (xs : List α) :
    Along holds place (x :: xs) ↔ holds place x ∧ Along holds (place + 1) xs := Iff.rfl

@[simp] theorem along_append (place : Nat) (xs ys : List α) :
    Along holds place (xs ++ ys) ↔ Along holds place xs ∧ Along holds (place + xs.length) ys := by
  induction xs generalizing place with
  | nil => simp
  | cons x xs ih =>
    have hplace : place + (x :: xs).length = place + 1 + xs.length := by
      rw [List.length_cons]
      omega
    rw [List.cons_append, along_cons, along_cons, ih, hplace, and_assoc]

/-- What holds along a list holds of the item at each of its places. -/
theorem Along.getElem? {place : Nat} {xs : List α} (h : Along holds place xs) {i : Nat} {x : α}
    (hx : xs[i]? = some x) : holds (place + i) x := by
  induction xs generalizing place i with
  | nil => cases hx
  | cons y xs ih =>
    cases i with
    | zero =>
      cases hx
      exact h.1
    | succ i =>
      have hrest := ih h.2 hx
      rwa [Nat.add_assoc, Nat.add_comm 1 i] at hrest

/-- Each item is what stands at its place, when the list is read off by place. -/
theorem along_of_getElem? (xs : List α) (place : Nat)
    (h : ∀ i x, xs[i]? = some x → holds (place + i) x) : Along holds place xs := by
  induction xs generalizing place with
  | nil => trivial
  | cons x xs ih =>
    refine ⟨h 0 x rfl, ih (place + 1) ?_⟩
    intro i y hy
    have hnext := h (i + 1) y hy
    rwa [← Nat.add_assoc, Nat.add_right_comm] at hnext

end

/-! ## Charts -/

/-- What a chart says of a place: the depth of the stack before the instruction there, and the
expression that it was made for, if it is a call. -/
structure Point where
  depth : Nat
  call : Option Expr := none

/-- The number of values that the call gives: none if the type written into it is `void`. -/
def Point.given (point : Point) : Nat :=
  match point.call with
  | some e => if e.type = some .void then 0 else 1
  | none => 0

/-- A point for each place of a code. -/
abbrev Chart := Nat → Point

/-- The call expression goes to the class and the method, with that many arguments. -/
def IsCallTo (cls method : String) (argc : Nat) : Expr → Prop
  | .call _ name args target _ => target = some cls ∧ name.name = method ∧ args.length = argc
  | _ => False

/-- The chart is right about an instruction: it finds on the stack what it takes, at every place
where it can go on the stack is as deep as it leaves it, a call is one of the calls `calls`, and a
return leaves nothing but its value behind. -/
structure Charted (calls : List Expr) (chart : Chart) (place : Nat) (instr : Instr) : Prop where
  operands : instr.pops ≤ (chart place).depth
  nexts : ∀ next ∈ instr.nexts place,
    (chart next).depth + instr.pops = (chart place).depth + instr.pushes (chart place).given
  call : ∀ cls method argc, instr = .call cls method argc →
    ∃ e ∈ calls, (chart place).call = some e ∧ IsCallTo cls method argc.toNat e
  ret : instr = .ret → (chart place).depth = 1
  retVoid : instr = .retVoid → (chart place).depth = 0

section

variable {calls : List Expr} {chart : Chart} {place : Nat}

/-- The chart is right about a plain instruction if it has the depth before it and the depth behind.
-/
theorem charted_plain {instr : Instr} (hplain : instr.isPlain = true) {depth : Nat}
    (hhere : (chart place).depth = depth) (hpops : instr.pops ≤ depth)
    (hnext : (chart (place + 1)).depth + instr.pops = depth + instr.pushes 0) :
    Charted calls chart place instr where
  operands := hhere ▸ hpops
  nexts := by
    intro next hmem
    rw [Instr.nexts_of_isPlain hplain, List.mem_singleton] at hmem
    rw [hmem, Instr.pushes_of_isPlain hplain, hhere, hnext]
  call := by
    rintro cls method argc rfl
    cases hplain
  ret := by
    rintro rfl
    cases hplain
  retVoid := by
    rintro rfl
    cases hplain

/-- The chart is right about a jump if the stack is as deep at its target. -/
theorem charted_jump {target depth : Nat} (hsize : target < UInt32.size)
    (hhere : (chart place).depth = depth) (htarget : (chart target).depth = depth) :
    Charted calls chart place (.jump (placeNumber target)) where
  operands := Nat.zero_le _
  nexts := by
    intro next hmem
    rw [Instr.nexts_jump, toNat_placeNumber hsize, List.mem_singleton] at hmem
    simp [hmem, htarget, hhere]
  call := nofun
  ret := nofun
  retVoid := nofun

theorem charted_jumpIfFalse {target depth : Nat} (hsize : target < UInt32.size)
    (hhere : (chart place).depth = depth + 1) (hnext : (chart (place + 1)).depth = depth)
    (htarget : (chart target).depth = depth) :
    Charted calls chart place (.jumpIfFalse (placeNumber target)) where
  operands := by
    rw [hhere]
    exact Nat.le_add_left 1 depth
  nexts := by
    intro next hmem
    rw [Instr.nexts_jumpIfFalse, toNat_placeNumber hsize, List.mem_cons, List.mem_singleton] at hmem
    rcases hmem with rfl | rfl
    · simp [hnext, hhere]
    · simp [htarget, hhere]
  call := nofun
  ret := nofun
  retVoid := nofun

/-- An instruction behind which the machine does not go on. -/
theorem charted_end {instr : Instr} (hnexts : instr.nexts place = [])
    (hpops : instr.pops ≤ (chart place).depth) (hret : instr = .ret → (chart place).depth = 1)
    (hretVoid : instr = .retVoid → (chart place).depth = 0) : Charted calls chart place instr where
  operands := hpops
  nexts := by
    intro next hmem
    rw [hnexts] at hmem
    cases hmem
  call := by
    rintro cls method argc rfl
    cases hnexts
  ret := hret
  retVoid := hretVoid

end

/-! ## Pieces of code -/

/-- The points of a piece at `place` are those of the chart. -/
abbrev Agrees (chart : Chart) (place : Nat) (points : List Point) : Prop :=
  Along (fun p point => chart p = point) place points

/-- The piece of code at `place` has points that chart it, with a stack `before` deep where it
starts, in every code that goes on behind it with a stack `after` deep. Where the line marks of the
piece point to, the stack is empty. -/
def Balanced (calls : List Expr) (place : Nat) (code : List Instr) (marks : List LineMark)
    (before after : Nat) : Prop :=
  ∃ points : List Point, points.length = code.length ∧
    ∀ chart : Chart, Agrees chart place points →
      (chart (place + code.length)).depth = after →
      (chart place).depth = before ∧ Along (Charted calls chart) place code ∧
        ∀ mark ∈ marks, (chart mark.place.toNat).depth = 0

namespace Balanced

variable {calls : List Expr} {place before between after : Nat}

theorem nil (calls : List Expr) (place depth : Nat) : Balanced calls place [] [] depth depth := by
  refine ⟨[], rfl, ?_⟩
  intro chart _ hafter
  exact ⟨hafter, trivial, List.forall_mem_nil _⟩

/-- A piece of one instruction is balanced if every chart that goes on right is right about it. -/
theorem single {instr : Instr} {point : Point}
    (h : ∀ chart : Chart, chart place = point → (chart (place + 1)).depth = after →
      Charted calls chart place instr) :
    Balanced calls place [instr] [] point.depth after := by
  refine ⟨[point], rfl, ?_⟩
  intro chart hpoints hafter
  obtain ⟨hhere, -⟩ := hpoints
  exact ⟨congrArg Point.depth hhere, ⟨h chart hhere hafter, trivial⟩, List.forall_mem_nil _⟩

theorem plain {instr : Instr} (hplain : instr.isPlain = true) (place : Nat)
    (hpops : instr.pops ≤ before) (hafter : after + instr.pops = before + instr.pushes 0) :
    Balanced calls place [instr] [] before after := by
  have h : Balanced calls place [instr] [] (Point.mk before none).depth after := by
    apply single
    intro chart hhere hnext
    apply charted_plain hplain (congrArg Point.depth hhere) hpops
    rwa [hnext]
  exact h

theorem call {e : Expr} {cls method : String} {argc : UInt16} (place : Nat) (he : e ∈ calls)
    (hto : IsCallTo cls method argc.toNat e) (hpops : argc.toNat ≤ before)
    (hafter : after + argc.toNat = before + (Point.mk before (some e)).given) :
    Balanced calls place [.call cls method argc] [] before after := by
  have h : Balanced calls place [.call cls method argc] [] (Point.mk before (some e)).depth
      after := by
    apply single
    intro chart hhere hnext
    refine ⟨?_, ?_, ?_, nofun, nofun⟩
    · rw [hhere]
      exact hpops
    · intro next hmem
      obtain rfl : next = place + 1 := List.mem_singleton.mp hmem
      rw [hhere, hnext]
      exact hafter
    · intro other name count hcall
      cases hcall
      exact ⟨e, he, congrArg Point.call hhere, hto⟩
  exact h

/-- Nothing is asked of the stack behind an instruction that does not go on. -/
theorem ended {instr : Instr} (place after : Nat) (hnexts : instr.nexts place = [])
    (hpops : instr.pops ≤ before) (hret : instr = .ret → before = 1)
    (hretVoid : instr = .retVoid → before = 0) :
    Balanced calls place [instr] [] before after := by
  have h : Balanced calls place [instr] [] (Point.mk before none).depth after := by
    apply single
    intro chart hhere _
    have hdepth : (chart place).depth = before := congrArg Point.depth hhere
    rw [← hdepth] at hpops hret hretVoid
    exact charted_end hnexts hpops hret hretVoid
  exact h

/-- Two balanced pieces of code, one behind the other, are balanced together. -/
theorem append {first second : List Instr} {marks more : List LineMark}
    (h : Balanced calls place first marks before between)
    (hmore : Balanced calls (place + first.length) second more between after) :
    Balanced calls place (first ++ second) (marks ++ more) before after := by
  obtain ⟨points, hlength, hfirst⟩ := h
  obtain ⟨others, hothers, hsecond⟩ := hmore
  refine ⟨points ++ others, by rw [List.length_append, List.length_append, hlength, hothers], ?_⟩
  intro chart hpoints hafter
  rw [Agrees, along_append, hlength] at hpoints
  rw [List.length_append, ← Nat.add_assoc] at hafter
  -- the second piece says how deep the stack is behind the first one
  obtain ⟨hbetween, hcode, hmarks⟩ := hsecond chart hpoints.2 hafter
  obtain ⟨hbefore, hthis, hthese⟩ := hfirst chart hpoints.1 hbetween
  refine ⟨hbefore, (along_append ..).mpr ⟨hthis, hcode⟩, ?_⟩
  intro mark hmark
  rcases List.mem_append.mp hmark with hmark | hmark
  · exact hthese mark hmark
  · exact hmarks mark hmark

/-- A piece without marks behind one with marks. -/
theorem append_unmarked {first second : List Instr} {marks : List LineMark}
    (h : Balanced calls place first marks before between)
    (hmore : Balanced calls (place + first.length) second [] between after) :
    Balanced calls place (first ++ second) marks before after := by
  have happend := h.append hmore
  rwa [List.append_nil] at happend

/-- The line of a piece that starts with an empty stack can be marked. -/
theorem markLine {code : List Instr} {marks : List LineMark}
    (h : Balanced calls place code marks 0 after) (hplace : place < UInt32.size) (span : Span) :
    Balanced calls place code (lineMark place span :: marks) 0 after := by
  obtain ⟨points, hlength, hcode⟩ := h
  refine ⟨points, hlength, ?_⟩
  intro chart hpoints hafter
  obtain ⟨hbefore, hcharted, hmarks⟩ := hcode chart hpoints hafter
  refine ⟨hbefore, hcharted, List.forall_mem_cons.mpr ⟨?_, hmarks⟩⟩
  rw [lineMark, toNat_placeNumber hplace]
  exact hbefore

/-! ### Around jumps -/

variable {depth : Nat} {left right test body rest : List Instr} {marks more : List LineMark}

/-- Both ways to the end of `left && right` leave one value. -/
theorem andCode (hsize : place + (Code.andCode place left right).length < UInt32.size)
    (hleft : Balanced calls place left [] depth (depth + 1))
    (hright : Balanced calls (place + left.length + 1) right [] depth (depth + 1)) :
    Balanced calls place (Code.andCode place left right) [] depth (depth + 1) := by
  obtain ⟨lefts, hlefts, hleft⟩ := hleft
  obtain ⟨rights, hrights, hright⟩ := hright
  simp only [Code.andCode, List.length_append, List.length_cons, List.length_nil] at hsize
  refine ⟨lefts ++ [⟨depth + 1, none⟩] ++ rights ++ [⟨depth + 1, none⟩, ⟨depth, none⟩], ?_, ?_⟩
  · simp only [Code.andCode, List.length_append, List.length_cons, List.length_nil, hlefts, hrights]
  · intro chart hpoints hafter
    simp only [Agrees, Code.andCode, along_append, along_cons, along_nil, and_true,
      List.length_append, List.length_cons, List.length_nil, hlefts, hrights, ← Nat.add_assoc,
      Nat.add_zero]
      at hpoints hafter ⊢
    obtain ⟨⟨⟨hpl, htest⟩, hpr⟩, hjump, hpush⟩ := hpoints
    have hfalse : place + left.length + right.length + 2 =
        place + left.length + 1 + right.length + 1 := by omega
    have hend : place + left.length + right.length + 3 =
        place + left.length + 1 + right.length + 1 + 1 := by omega
    obtain ⟨hr, hrightcode, -⟩ := hright chart hpr (congrArg Point.depth hjump)
    obtain ⟨hl, hleftcode, -⟩ := hleft chart hpl (congrArg Point.depth htest)
    refine ⟨hl, ⟨⟨⟨hleftcode, ?_⟩, hrightcode⟩, ?_, ?_⟩, List.forall_mem_nil _⟩
    · apply charted_jumpIfFalse (by omega) (congrArg Point.depth htest) hr
      rw [hfalse]
      exact congrArg Point.depth hpush
    · apply charted_jump (by omega) (congrArg Point.depth hjump)
      rw [hend]
      exact hafter
    · apply charted_plain rfl (congrArg Point.depth hpush) (Nat.zero_le _)
      exact hafter

/-- Both ways to the end of `left || right` leave one value. -/
theorem orCode (hsize : place + (Code.orCode place left right).length < UInt32.size)
    (hleft : Balanced calls place left [] depth (depth + 1))
    (hright : Balanced calls (place + left.length + 3) right [] depth (depth + 1)) :
    Balanced calls place (Code.orCode place left right) [] depth (depth + 1) := by
  obtain ⟨lefts, hlefts, hleft⟩ := hleft
  obtain ⟨rights, hrights, hright⟩ := hright
  simp only [Code.orCode, List.length_append, List.length_cons, List.length_nil] at hsize
  refine ⟨lefts ++ [⟨depth + 1, none⟩, ⟨depth, none⟩, ⟨depth + 1, none⟩] ++ rights, ?_, ?_⟩
  · simp only [Code.orCode, List.length_append, List.length_cons, List.length_nil, hlefts, hrights]
  · intro chart hpoints hafter
    simp only [Agrees, Code.orCode, along_append, along_cons, along_nil, and_true,
      List.length_append, List.length_cons, List.length_nil, hlefts, ← Nat.add_assoc, Nat.add_zero]
      at hpoints hafter ⊢
    obtain ⟨⟨hpl, htest, hpush, hjump⟩, hpr⟩ := hpoints
    have hend : place + left.length + right.length + 3 =
        place + left.length + 1 + 1 + 1 + right.length := by omega
    obtain ⟨hr, hrightcode, -⟩ := hright chart hpr hafter
    obtain ⟨hl, hleftcode, -⟩ := hleft chart hpl (congrArg Point.depth htest)
    refine ⟨hl, ⟨⟨hleftcode, ?_, ?_, ?_⟩, hrightcode⟩, List.forall_mem_nil _⟩
    · exact charted_jumpIfFalse (by omega) (congrArg Point.depth htest)
        (congrArg Point.depth hpush) hr
    · apply charted_plain rfl (congrArg Point.depth hpush) (Nat.zero_le _)
      exact congrArg Point.depth hjump
    · apply charted_jump (by omega) (congrArg Point.depth hjump)
      rw [hend]
      exact hafter

/-- A round of a loop leaves the stack as it was, and so does leaving the loop. -/
theorem loop (hsize : place + test.length + 1 + body.length + 1 < UInt32.size)
    (htest : Balanced calls place test [] depth (depth + 1))
    (hbody : Balanced calls (place + test.length + 1) body marks depth depth) :
    Balanced calls place
      (test ++ [.jumpIfFalse (placeNumber (place + test.length + 1 + body.length + 1))] ++ body
        ++ [.jump (placeNumber place)]) marks depth depth := by
  obtain ⟨tests, htests, htest⟩ := htest
  obtain ⟨bodies, hbodies, hbody⟩ := hbody
  refine ⟨tests ++ [⟨depth + 1, none⟩] ++ bodies ++ [⟨depth, none⟩], ?_, ?_⟩
  · simp only [List.length_append, List.length_cons, List.length_nil, htests, hbodies]
  · intro chart hpoints hafter
    simp only [Agrees, along_append, along_cons, along_nil, and_true, List.length_append,
      List.length_cons, List.length_nil, htests, hbodies, ← Nat.add_assoc, Nat.add_zero]
      at hpoints hafter ⊢
    obtain ⟨⟨⟨hpt, hleave⟩, hpb⟩, hback⟩ := hpoints
    obtain ⟨hb, hbodycode, hmarks⟩ := hbody chart hpb (congrArg Point.depth hback)
    obtain ⟨ht, htestcode, -⟩ := htest chart hpt (congrArg Point.depth hleave)
    refine ⟨ht, ⟨⟨⟨htestcode, ?_⟩, hbodycode⟩, ?_⟩, hmarks⟩
    · exact charted_jumpIfFalse hsize (congrArg Point.depth hleave) hb hafter
    · exact charted_jump (by omega) (congrArg Point.depth hback) ht

/-- A branch that is taken and the branches behind it leave the stack as it was. -/
theorem branch
    (hsize : place + test.length + 1 + body.length + 1 + rest.length < UInt32.size)
    (htest : Balanced calls place test [] depth (depth + 1))
    (hbody : Balanced calls (place + test.length + 1) body marks depth depth)
    (hrest : Balanced calls (place + test.length + 1 + body.length + 1) rest more depth depth) :
    Balanced calls place
      (test ++ [.jumpIfFalse (placeNumber (place + test.length + 1 + body.length + 1))] ++ body
        ++ [.jump (placeNumber (place + test.length + 1 + body.length + 1 + rest.length))] ++ rest)
      (marks ++ more) depth depth := by
  obtain ⟨tests, htests, htest⟩ := htest
  obtain ⟨bodies, hbodies, hbody⟩ := hbody
  obtain ⟨rests, hrests, hrest⟩ := hrest
  refine ⟨tests ++ [⟨depth + 1, none⟩] ++ bodies ++ [⟨depth, none⟩] ++ rests, ?_, ?_⟩
  · simp only [List.length_append, List.length_cons, List.length_nil, htests, hbodies, hrests]
  · intro chart hpoints hafter
    simp only [Agrees, along_append, along_cons, along_nil, and_true, List.length_append,
      List.length_cons, List.length_nil, htests, hbodies, ← Nat.add_assoc, Nat.add_zero]
      at hpoints hafter ⊢
    obtain ⟨⟨⟨⟨hpt, hskip⟩, hpb⟩, hleave⟩, hpr⟩ := hpoints
    obtain ⟨hr, hrestcode, hothers⟩ := hrest chart hpr hafter
    obtain ⟨hb, hbodycode, hmarks⟩ := hbody chart hpb (congrArg Point.depth hleave)
    obtain ⟨ht, htestcode, -⟩ := htest chart hpt (congrArg Point.depth hskip)
    refine ⟨ht, ⟨⟨⟨⟨htestcode, ?_⟩, hbodycode⟩, ?_⟩, hrestcode⟩,
      List.forall_mem_append.mpr ⟨hmarks, hothers⟩⟩
    · exact charted_jumpIfFalse (by omega) (congrArg Point.depth hskip) hb hr
    · exact charted_jump hsize (congrArg Point.depth hleave) hafter

end Balanced

end StackScript.Code
