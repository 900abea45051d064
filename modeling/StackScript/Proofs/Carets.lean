import Mathlib.Data.List.Induction
import StackScript.Proofs.Outlines
import StackScript.Session.Report

/-!
# Carets under a span

The characters of a text, each with its place (`placed`), fall into rows. The lines of a text
without carriage returns are its rows, as far as there are characters in them, without their line
feeds (`getElem?_lines`). What a report shows below its first line follows from that alone
(`render_marks_span`): each row that the span reaches and that is there, and under it a row of
carets (`caretRow`), which starts below the first place of the span in the row and has as many
carets as the span has characters there, at least one.
-/

namespace StackScript.Source

/-! ## Characters and their places -/

/-- The characters of a text that starts at a place, each with its own place. -/
def placed (mark : Mark) : List Char → List (Mark × Char)
  | [] => []
  | c :: cs => (mark, c) :: placed (mark.next c) cs

/-- The places of a text that starts at a place: before each character and at the end. -/
def places (mark : Mark) : List Char → List Mark
  | [] => [mark]
  | c :: cs => mark :: places (mark.next c) cs

/-- The characters in a row, its line feed included. -/
def inRow (row : Nat) (chars : List (Mark × Char)) : List (Mark × Char) :=
  chars.filter (·.1.line = row)

/-- The characters that a line shows: all but line feeds. -/
def shown (chars : List (Mark × Char)) : List Char := (chars.map Prod.snd).filter (· ≠ '\n')

/-- The characters in a span. -/
def Span.pick (span : Span) (chars : List (Mark × Char)) : List (Mark × Char) :=
  chars.filter fun (mark, _) => span.start.offset ≤ mark.offset ∧ mark.offset < span.stop.offset

/-- The column of the first place in a row that a span reaches. -/
def Span.firstColumn (span : Span) (text : List Char) (row : Nat) : Nat :=
  ((places .first text).find? fun mark =>
    mark.line = row ∧ span.start.offset ≤ mark.offset ∧ mark.offset ≤ span.stop.offset).elim 1
    Mark.column

variable {mark : Mark} {row : Nat}

theorem placed_append (mark : Mark) (cs ds : List Char) :
    placed mark (cs ++ ds) = placed mark cs ++ placed (mark.after cs) ds := by
  induction cs generalizing mark with
  | nil => rfl
  | cons c cs ih => exact congrArg _ (ih (mark.next c))

theorem places_append (mark : Mark) (cs ds : List Char) :
    places mark (cs ++ ds) = (placed mark cs).map Prod.fst ++ places (mark.after cs) ds := by
  induction cs generalizing mark with
  | nil => rfl
  | cons c cs ih => exact congrArg _ (ih (mark.next c))

theorem inRow_append (row : Nat) (a b : List (Mark × Char)) :
    inRow row (a ++ b) = inRow row a ++ inRow row b := List.filter_append ..

theorem shown_append (a b : List (Mark × Char)) : shown (a ++ b) = shown a ++ shown b := by
  rw [shown, List.map_append, List.filter_append]
  rfl

theorem Mark.line_next_newline (mark : Mark) : (mark.next '\n').line = mark.line + 1 := rfl

theorem Mark.line_next {c : Char} (hc : c ≠ '\n') : (mark.next c).line = mark.line := by
  rw [Mark.next, if_neg hc]

theorem Mark.column_next {c : Char} (hc : c ≠ '\n') : (mark.next c).column = mark.column + 1 := by
  rw [Mark.next, if_neg hc]

theorem Mark.line_le_next (mark : Mark) (c : Char) : mark.line ≤ (mark.next c).line := by
  by_cases hc : c = '\n'
  · subst hc
    exact Nat.le_succ _
  · exact Nat.le_of_eq (Mark.line_next hc).symm

theorem Mark.line_le_after (mark : Mark) (cs : List Char) : mark.line ≤ (mark.after cs).line := by
  induction cs generalizing mark with
  | nil => exact Nat.le_refl _
  | cons c cs ih => exact Nat.le_trans (mark.line_le_next c) (ih (mark.next c))

/-- A character stands between the first place of its text and the last one. -/
theorem bounds_of_placed {cs : List Char} {p : Mark × Char} (h : p ∈ placed mark cs) :
    (mark.offset ≤ p.1.offset ∧ p.1.offset < (mark.after cs).offset) ∧
      mark.line ≤ p.1.line ∧ p.1.line ≤ (mark.after cs).line := by
  induction cs generalizing mark with
  | nil => cases h
  | cons c cs ih =>
    have hafter : mark.after (c :: cs) = (mark.next c).after cs := rfl
    have hoffset := mark.offset_next c
    have hpositive := c.utf8Size_pos
    have hline := mark.line_le_next c
    rw [hafter]
    rcases List.mem_cons.mp h with rfl | h
    · have hlast := (mark.next c).offset_after cs
      exact ⟨⟨Nat.le_refl _, by simp only; omega⟩, Nat.le_refl _,
        Nat.le_trans hline ((mark.next c).line_le_after cs)⟩
    · obtain ⟨⟨hlow, hhigh⟩, hfirst, hlast⟩ := ih h
      exact ⟨⟨by omega, hhigh⟩, Nat.le_trans hline hfirst, hlast⟩

theorem inRow_of_lt {cs : List Char} (h : row < mark.line) : inRow row (placed mark cs) = [] := by
  refine List.filter_eq_nil_iff.mpr fun p hp => ?_
  have := (bounds_of_placed hp).2.1
  simp only [decide_eq_true_eq]
  omega

theorem inRow_of_gt {cs : List Char} (h : (mark.after cs).line < row) :
    inRow row (placed mark cs) = [] := by
  refine List.filter_eq_nil_iff.mpr fun p hp => ?_
  have := (bounds_of_placed hp).2.2
  simp only [decide_eq_true_eq]
  omega

/-- The column of the last place counts the characters that its row shows. -/
theorem length_shown_last (cs : List Char) :
    (shown (inRow (Mark.first.after cs).line (placed .first cs))).length + 1 =
      (Mark.first.after cs).column := by
  induction cs using List.reverseRecOn with
  | nil => rfl
  | append_singleton cs c ih =>
    rw [Mark.after_concat, placed_append, inRow_append, shown_append, List.length_append]
    by_cases hc : c = '\n'
    · subst hc
      rw [Mark.line_next_newline, inRow_of_gt (Nat.lt_succ_self _)]
      simp [placed, inRow, shown, Mark.next]
    · rw [Mark.line_next hc, Mark.column_next hc, ← ih]
      simp [placed, inRow, shown, hc]

/-! ## Lines are rows -/

open StackScript.Text

/-- What a row shows, if there are characters in it. -/
def rowText? (row : Nat) (chars : List (Mark × Char)) : Option (List Char) :=
  if inRow row chars = [] then none else some (shown (inRow row chars))

/-- The characters stand in the row of the mark, and none of them ends it. -/
def IsFront (mark : Mark) (front : List (Mark × Char)) : Prop :=
  ∀ p ∈ front, p.1.line = mark.line ∧ p.2 ≠ '\n' ∧ p.2 ≠ '\r'

namespace IsFront

variable {front : List (Mark × Char)}

theorem inRow_eq (h : IsFront mark front) : inRow mark.line front = front :=
  List.filter_eq_self.mpr fun p hp => decide_eq_true (h p hp).1

theorem inRow_later (h : IsFront mark front) (i : Nat) :
    inRow (mark.line + (i + 1)) front = [] := by
  refine List.filter_eq_nil_iff.mpr fun p hp => ?_
  have := (h p hp).1
  simp only [decide_eq_true_eq]
  omega

theorem shown_eq (h : IsFront mark front) : shown front = front.map Prod.snd := by
  refine List.filter_eq_self.mpr fun c hc => ?_
  obtain ⟨p, hp, rfl⟩ := List.mem_map.mp hc
  exact decide_eq_true (h p hp).2.1

theorem dropReturn_eq (h : IsFront mark front) :
    dropReturn (front.map Prod.snd) = front.map Prod.snd := by
  rw [dropReturn, if_neg]
  intro hlast
  obtain ⟨p, hp, hpc⟩ := List.mem_map.mp (List.mem_of_getLast? hlast)
  exact (h p hp).2.2 hpc

theorem concat {c : Char} (h : IsFront mark front) (hc : c ≠ '\n') (hreturn : c ≠ '\r') :
    IsFront (mark.next c) (front ++ [(mark, c)]) := by
  intro p hp
  rw [Mark.line_next hc]
  rcases List.mem_append.mp hp with hp | hp
  · exact h p hp
  · obtain rfl := List.mem_singleton.mp hp
    exact ⟨rfl, hc, hreturn⟩

end IsFront

/-- The lines from some place in a line on, the characters before it in its row being known. -/
theorem getElem?_linesFrom {cs : List Char} {front : List (Mark × Char)} (hcs : '\r' ∉ cs)
    (hfront : IsFront mark front) (i : Nat) :
    (linesFrom (front.map Prod.snd).reverse cs)[i]? =
      rowText? (mark.line + i) (front ++ placed mark cs) := by
  induction cs generalizing mark front i with
  | nil =>
    rw [placed, List.append_nil, rowText?]
    cases i with
    | zero =>
      rw [Nat.add_zero, hfront.inRow_eq, hfront.shown_eq]
      cases front with
      | nil => rfl
      | cons p front => simp [linesFrom]
    | succ i =>
      rw [hfront.inRow_later, if_pos rfl]
      cases front with
      | nil => rfl
      | cons p front => simp [linesFrom]
  | cons c cs ih =>
    obtain ⟨hc, hrest⟩ := not_or.mp (mt List.mem_cons.mpr hcs)
    by_cases hfeed : c = '\n'
    · subst hfeed
      have hhere : ∀ row, inRow row (front ++ placed mark ('\n' :: cs)) =
          inRow row (front ++ [(mark, '\n')]) ++ inRow row (placed (mark.next '\n') cs) := by
        intro row
        rw [← inRow_append, List.append_assoc]
        rfl
      -- the row ends here, and the next one starts with nothing in front of it
      rw [linesFrom, List.reverse_reverse, hfront.dropReturn_eq]
      cases i with
      | zero =>
        have hend : inRow mark.line [(mark, '\n')] = [(mark, '\n')] := by simp [inRow]
        have hnext : inRow mark.line (placed (mark.next '\n') cs) = [] :=
          inRow_of_lt (Nat.lt_succ_self _)
        rw [Nat.add_zero, rowText?, hhere, hnext, inRow_append, hfront.inRow_eq, List.append_nil,
          hend, if_neg (by simp), shown_append, hfront.shown_eq]
        simp [shown]
      | succ i =>
        have hnone : IsFront (mark.next '\n') [] := nofun
        have hnext := ih hrest hnone i
        have hend : inRow (mark.line + (i + 1)) [(mark, '\n')] = [] := by simp [inRow]
        have hsame : inRow (mark.line + (i + 1)) (front ++ placed mark ('\n' :: cs)) =
            inRow (mark.line + (i + 1)) (placed (mark.next '\n') cs) := by
          rw [hhere, inRow_append, hfront.inRow_later, hend]
          rfl
        rw [Mark.line_next_newline, Nat.add_assoc, Nat.add_comm 1 i] at hnext
        rw [List.getElem?_cons_succ, rowText?, hsame]
        exact hnext
    · have hnext := ih hrest (hfront.concat hfeed (Ne.symm hc)) i
      rw [linesFrom.eq_3 _ _ _ hfeed]
      rw [List.map_append, List.reverse_append, Mark.line_next hfeed, List.append_assoc] at hnext
      exact hnext

/-- The lines of a text are the rows that have characters. -/
theorem getElem?_lines {cs : List Char} (hcs : '\r' ∉ cs) (i : Nat) :
    (lines cs)[i]? = rowText? (i + 1) (placed .first cs) := by
  have hnone : IsFront .first [] := nofun
  rw [Nat.add_comm i 1]
  exact getElem?_linesFrom hcs hnone i

/-! ## Spans -/

/-- A span cuts its text in three. -/
theorem Span.Faithful.cut {text : List Char} {span : Span} (h : span.Faithful text) :
    ∃ before inside after, text = before ++ inside ++ after ∧
      span = ⟨Mark.first.after before, Mark.first.after (before ++ inside)⟩ := by
  have hmark : ∀ {mark : Mark} {front back : List Char}, mark.Faithful text →
      text = front ++ back → mark.offset = byteLength front → mark = Mark.first.after front := by
    intro mark front back hmark htext hoffset
    refine hmark.unique (Mark.faithful_after htext) (hoffset.trans ?_)
    rw [Mark.offset_after]
    exact (Nat.zero_add _).symm
  obtain ⟨before, rest, htext, hstart, -⟩ := h.start
  obtain ⟨front, after, htext', hstop, -⟩ := h.stop
  obtain ⟨inside, rfl⟩ : ∃ inside, front = before ++ inside := by
    rcases List.append_eq_append_iff.mp (htext.symm.trans htext') with
      ⟨inside, hfront, -⟩ | ⟨more, hbefore, hafter⟩
    · exact ⟨inside, hfront⟩
    · have hordered := h.ordered
      have hsame : before = front := by
        refine eq_of_byteLength (htext.symm.trans htext') (Nat.le_antisymm ?_ ?_)
        · rw [← hstart, ← hstop]
          exact hordered
        · rw [hbefore, byteLength_append]
          exact Nat.le_add_right _ _
      exact ⟨[], by rw [hsame, List.append_nil]⟩
  refine ⟨before, inside, after, htext', ?_⟩
  rw [← hmark h.start htext hstart, ← hmark h.stop htext' hstop]

variable {before inside after : List Char}

/-- The characters in a span. -/
theorem pick_placed :
    (⟨Mark.first.after before, Mark.first.after (before ++ inside)⟩ : Span).pick
      (placed .first (before ++ inside ++ after)) = placed (Mark.first.after before) inside := by
  have hstop : Mark.first.after (before ++ inside) = (Mark.first.after before).after inside :=
    Mark.after_append ..
  rw [placed_append, placed_append, hstop, Span.pick, List.filter_append, List.filter_append,
    List.filter_eq_nil_iff.mpr, List.filter_eq_self.mpr, List.filter_eq_nil_iff.mpr,
    List.nil_append, List.append_nil]
  · intro p hp
    have := (bounds_of_placed hp).1
    simp only [decide_eq_true_eq]
    omega
  · intro p hp
    exact decide_eq_true (bounds_of_placed hp).1
  · intro p hp
    have := (bounds_of_placed hp).1
    simp only [decide_eq_true_eq]
    omega

/-- The first place of a row in a run of characters is the start of the run, or that of the row. -/
theorem find?_places {cs rest : List Char} {low high : Nat} (hlow : low ≤ mark.offset)
    (hhigh : (mark.after cs).offset = high) (hfirst : mark.line ≤ row)
    (hlast : row ≤ (mark.after cs).line) :
    ((places mark (cs ++ rest)).find? fun m =>
      m.line = row ∧ low ≤ m.offset ∧ m.offset ≤ high).elim 1 Mark.column =
      if row = mark.line then mark.column else 1 := by
  induction cs generalizing mark with
  | nil =>
    have hrow : row = mark.line := Nat.le_antisymm hlast hfirst
    have hin : mark.offset ≤ high := Nat.le_of_eq hhigh
    cases rest with
    | nil => simp [places, hrow, hlow, hin]
    | cons d rest => simp [places, hrow, hlow, hin]
  | cons c cs ih =>
    have hoffset := mark.offset_next c
    have hin : mark.offset ≤ high := by
      rw [← hhigh, Mark.offset_after]
      exact Nat.le_add_right _ _
    rw [List.cons_append, places]
    by_cases hrow : row = mark.line
    · simp [hrow, hlow, hin]
    · have hnext : (mark.next c).line ≤ row := by
        by_cases hc : c = '\n'
        · subst hc
          exact Nat.lt_of_le_of_ne hfirst (Ne.symm hrow)
        · exact Nat.le_trans (Nat.le_of_eq (Mark.line_next hc)) hfirst
      rw [List.find?_cons_of_neg (by simp [Ne.symm hrow]), if_neg hrow,
        ih (by omega) hhigh hnext hlast]
      -- a row other than the first one starts behind a line feed
      split
      · rename_i hline
        by_cases hc : c = '\n'
        · subst hc
          rfl
        · exact absurd (hline.trans (Mark.line_next hc)) hrow
      · rfl

/-- The characters before the span in a row that it reaches take up the columns before its first one
there: the column it starts in, or the first one. -/
theorem length_before (hfirst : (Mark.first.after before).line ≤ row) :
    (shown (inRow row (placed .first before))).length + 1 =
      if row = (Mark.first.after before).line then (Mark.first.after before).column else 1 := by
  split
  · rename_i hrow
    rw [hrow, length_shown_last]
  · rename_i hrow
    rw [inRow_of_gt (Nat.lt_of_le_of_ne hfirst (Ne.symm hrow))]
    rfl

/-- In a row that the span reaches, its first place stands behind the characters before the span. -/
theorem firstColumn_eq (hfirst : (Mark.first.after before).line ≤ row)
    (hlast : row ≤ (Mark.first.after (before ++ inside)).line) :
    (⟨Mark.first.after before, Mark.first.after (before ++ inside)⟩ : Span).firstColumn
        (before ++ inside ++ after) row =
      (shown (inRow row (placed .first before))).length + 1 := by
  have hstop : Mark.first.after (before ++ inside) = (Mark.first.after before).after inside :=
    Mark.after_append ..
  have hearlier : ((placed .first before).map Prod.fst).find? (fun m => m.line = row ∧
      (Mark.first.after before).offset ≤ m.offset ∧
      m.offset ≤ (Mark.first.after (before ++ inside)).offset) = none := by
    refine List.find?_eq_none.mpr fun m hm => ?_
    obtain ⟨p, hp, rfl⟩ := List.mem_map.mp hm
    have := (bounds_of_placed hp).1
    simp only [decide_eq_true_eq]
    omega
  rw [hstop] at hlast
  rw [length_before hfirst, Span.firstColumn, List.append_assoc, places_append, List.find?_append,
    hearlier, Option.none_or]
  exact find?_places (Nat.le_refl _) (congrArg Mark.offset hstop.symm) hfirst hlast

end StackScript.Source

namespace StackScript.Session

open StackScript.Source StackScript.Text

/-! ## Rows of carets -/

/-- A row of a text with the carets below it, if there are characters in it: spaces up to the first
column of the span, and a caret for each character of the span that the row shows, at least one. -/
def caretRow (text : List Char) (span : Span) (row : Nat) : String :=
  (rowText? row (placed .first text)).elim "" fun line =>
    String.ofList line ++ "\n" ++ fill ' ' (span.firstColumn text row - 1) ++
      fill '^' (max (shown (inRow row (span.pick (placed .first text)))).length 1) ++ "\n"

/-- What is echoed, line by line, the lines counted from one. -/
theorem echoFrom_eq {row last : Nat} (h : row ≤ last) (start stop : Nat) (ls : List (List Char)) :
    echoFrom row last start stop ls =
      String.join ((List.range' (row + 1) (last + 1 - row)).map fun r =>
        (ls[r - (row + 1)]?).elim "" fun line =>
          caretLines line (if r = row + 1 then start else 0)
            (if r = last + 1 then stop else line.length)) := by
  induction ls generalizing row start with
  | nil =>
    rw [echoFrom, eq_comm]
    simp only [List.getElem?_nil, Option.elim_none]
    generalize List.range' (row + 1) (last + 1 - row) = rows
    induction rows with
    | nil => rfl
    | cons r rows ih => rw [List.map_cons, String.join_cons, ih, String.empty_append]
  | cons line rest ih =>
    rw [Nat.succ_sub h, List.range'_succ, List.map_cons, String.join_cons, Nat.sub_self,
      List.getElem?_cons_zero, Option.elim_some, if_pos rfl, echoFrom]
    by_cases hrow : row < last
    · have hne : row + 1 ≠ last + 1 := by omega
      rw [if_pos hrow, if_neg hne, ih hrow, Nat.succ_sub_succ]
      congr 2
      refine List.map_congr_left fun r hr => ?_
      obtain ⟨hlow, -⟩ := List.mem_range'_1.mp hr
      have hr : r - (row + 1) = r - (row + 1 + 1) + 1 := by omega
      have hne : r ≠ row + 1 := by omega
      rw [hr, List.getElem?_cons_succ, if_neg hne, ite_self]
    · obtain rfl : row = last := Nat.le_antisymm h (Nat.not_lt.mp hrow)
      rw [if_neg hrow, if_pos rfl, Nat.sub_self]
      exact (String.append_empty).symm

variable {before inside after : List Char}

/-- The carets under one of the rows that a span reaches. -/
theorem caretRow_eq {row : Nat} (hfirst : (Mark.first.after before).line ≤ row)
    (hlast : row ≤ (Mark.first.after (before ++ inside)).line) :
    caretRow (before ++ inside ++ after)
        ⟨Mark.first.after before, Mark.first.after (before ++ inside)⟩ row =
      (rowText? row (placed .first (before ++ inside ++ after))).elim "" fun line =>
        caretLines line
          (if row = (Mark.first.after before).line then (Mark.first.after before).column - 1 else 0)
          (if row = (Mark.first.after (before ++ inside)).line then
            (Mark.first.after (before ++ inside)).column - 1 else line.length) := by
  have hstart : (if row = (Mark.first.after before).line then (Mark.first.after before).column - 1
      else 0) = (shown (inRow row (placed .first before))).length := by
    have hbefore := length_before hfirst
    split
    · rename_i hrow
      rw [if_pos hrow] at hbefore
      omega
    · rename_i hrow
      rw [if_neg hrow] at hbefore
      omega
  rw [caretRow, pick_placed, firstColumn_eq hfirst hlast, hstart, Nat.add_sub_cancel]
  cases hline : rowText? row (placed .first (before ++ inside ++ after)) with
  | none => rfl
  | some line =>
    have hinside : placed .first (before ++ inside) =
        placed .first before ++ placed (Mark.first.after before) inside := placed_append ..
    have hcount : (if row = (Mark.first.after (before ++ inside)).line then
        (Mark.first.after (before ++ inside)).column - 1 else line.length) =
        (shown (inRow row (placed .first before))).length +
          (shown (inRow row (placed (Mark.first.after before) inside))).length := by
      split
      · rename_i hrow
        rw [← length_shown_last, ← hrow, hinside, inRow_append, shown_append, List.length_append]
        exact Nat.add_sub_cancel ..
      · rename_i hrow
        have hrest : inRow row (placed (Mark.first.after (before ++ inside)) after) = [] :=
          inRow_of_lt (Nat.lt_of_le_of_ne hlast hrow)
        rw [rowText?] at hline
        split at hline
        · cases hline
        · obtain rfl := Option.some.inj hline
          rw [placed_append, inRow_append, hrest, hinside, List.append_nil, inRow_append,
            shown_append, List.length_append]
    rw [Option.elim_some, Option.elim_some, hcount, caretLines, Nat.add_sub_cancel_left]

/-- What is echoed below a message, row by row. -/
theorem echo_eq (file : String) {source : String} (hsource : '\r' ∉ source.toList)
    (hcut : source.toList = before ++ inside ++ after) :
    let span : Span := ⟨Mark.first.after before, Mark.first.after (before ++ inside)⟩
    echo (.ofSpan file span) source =
      String.join ((List.range' span.start.line (span.stop.line + 1 - span.start.line)).map
        (caretRow source.toList span)) := by
  intro span
  have hpositive : 0 < span.start.line := Mark.line_le_after .first before
  have hordered : span.start.line ≤ span.stop.line := by
    simp only [span, Mark.after_append]
    exact Mark.line_le_after ..
  unfold echo
  simp only [Position.ofSpan]
  rw [Nat.max_eq_left (Nat.sub_le_sub_right hordered 1),
    echoFrom_eq (Nat.sub_le_sub_right hordered 1), Nat.sub_add_cancel hpositive,
    Nat.sub_add_cancel (Nat.le_trans hpositive hordered)]
  have hcount : span.stop.line - (span.start.line - 1) =
      span.stop.line + 1 - span.start.line := by omega
  rw [hcount]
  congr 1
  refine List.map_congr_left fun row hrow => ?_
  obtain ⟨hfirst, hlast⟩ := List.mem_range'_1.mp hrow
  have hlast : row ≤ span.stop.line := by omega
  have hline : ((lines source.toList).drop (span.start.line - 1))[row - span.start.line]? =
      rowText? row (placed .first source.toList) := by
    have hindex : span.start.line - 1 + (row - span.start.line) = row - 1 := by omega
    rw [List.getElem?_drop, hindex, getElem?_lines hsource,
      Nat.sub_add_cancel (Nat.le_trans hpositive hfirst)]
  rw [hline, hcut, caretRow_eq hfirst hlast]

/-- The echo of a span is, for each row of the source that the span reaches and that is there, the
row with carets below the part that is meant. -/
theorem echo_of_faithful (file : String) {source : String} (hsource : '\r' ∉ source.toList)
    {span : Span} (hspan : span.Faithful source.toList) :
    echo (.ofSpan file span) source =
      String.join ((List.range' span.start.line (span.stop.line + 1 - span.start.line)).map
        (caretRow source.toList span)) := by
  obtain ⟨before, inside, after, hcut, rfl⟩ := hspan.cut
  exact echo_eq file hsource hcut

/-- A report shows, below the message, each row of the source that the span reaches and that is
there, and under it carets below the part that is meant. -/
theorem render_marks_span (message file : String) {source : String} (hsource : '\r' ∉ source.toList)
    {span : Span} (hspan : span.Faithful source.toList) :
    render message (some (.ofSpan file span)) (some source) =
      file ++ ":" ++ toString span.start.line ++ ": " ++ message ++ "\n" ++
        String.join ((List.range' span.start.line (span.stop.line + 1 - span.start.line)).map
          (caretRow source.toList span)) := by
  rw [← echo_of_faithful file hsource hspan]
  rfl

/-- A source with a character of two bytes, an empty line, and a last line without an end. -/
def sumSource : String := "ä = 1\n\nputs ä + b"

/-- The span from the value in the first line up to the sum in the third one. -/
def sumSpan : Span := ⟨⟨5, 1, 5⟩, ⟨15, 3, 7⟩⟩

theorem render_marks_sumSpan :
    '\r' ∉ sumSource.toList ∧ sumSpan.Faithful sumSource.toList ∧
      render "no sum" (some (.ofSpan "sum.mirah" sumSpan)) (some sumSource) =
        "sum.mirah:1: no sum\nä = 1\n    ^\n\n^\nputs ä + b\n^^^^^^\n" := by
  have hsource : '\r' ∉ sumSource.toList := by decide +kernel
  have hstart : sumSource.toList = "ä = ".toList ++ "1\n\nputs ä + b".toList := by decide +kernel
  have hstop : sumSource.toList = "ä = 1\n\nputs ä".toList ++ " + b".toList := by decide +kernel
  have hspan : sumSpan.Faithful sumSource.toList :=
    ⟨Mark.faithful_after hstart, Mark.faithful_after hstop, by decide⟩
  refine ⟨hsource, hspan, (render_marks_span "no sum" "sum.mirah" hsource hspan).trans ?_⟩
  decide +kernel

end StackScript.Session
