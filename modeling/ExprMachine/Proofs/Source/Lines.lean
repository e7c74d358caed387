import Mathlib.Data.List.DropRight
import ExprMachine.Source

/-! Lines of a text by the newlines around a position: as many newlines as stand before the
position, as many lines stand before its own. -/

namespace ExprMachine

def dropReturn (line : List Char) : List Char :=
  if line.getLast? = some '\r' then line.dropLast else line

/-- What follows the last newline. -/
def lastLine (before : List Char) : List Char := before.rtakeWhile (· != '\n')

/-- The line that a position is on, by what stands before and after the position. Neither the
newline that ends it nor a carriage return before that belongs to it. -/
def lineAround (before after : List Char) : List Char :=
  let line := lastLine before ++ after.takeWhile (· != '\n')
  if '\n' ∈ after then dropReturn line else line

example : lineAround "1;\r\n\"a".toList "b\";\r\n2;".toList = "\"ab\";".toList := by decide

theorem lastLine_of_not_mem {cs : List Char} (h : '\n' ∉ cs) : lastLine cs = cs := by
  rw [lastLine, List.rtakeWhile_eq_self_iff]
  intro c hc
  simpa using ne_of_mem_of_not_mem hc h

theorem lastLine_newline (before cs : List Char) :
    lastLine (before ++ '\n' :: cs) = lastLine cs := by
  induction cs using List.reverseRecOn with
  | nil => exact List.rtakeWhile_concat_neg _ _ _ (by decide)
  | append_singleton cs c ih =>
    have hassoc : before ++ '\n' :: (cs ++ [c]) = (before ++ '\n' :: cs) ++ [c] := by simp
    simp only [lastLine] at ih ⊢
    rw [hassoc, List.rtakeWhile_concat, List.rtakeWhile_concat, ih]

theorem lastLine_append (before cs : List Char) :
    lastLine (before ++ cs) = if '\n' ∈ cs then lastLine cs else lastLine before ++ cs := by
  by_cases hcs : '\n' ∈ cs
  · obtain ⟨init, rest, rfl⟩ := List.append_of_mem hcs
    rw [if_pos hcs, ← List.append_assoc, lastLine_newline, lastLine_newline]
  · rw [if_neg hcs]
    induction cs using List.reverseRecOn with
    | nil => simp
    | append_singleton cs c ih =>
      have hc : (c != '\n') = true := by simpa using fun h : c = '\n' => hcs (by simp [h])
      have hh := ih fun h => hcs (by simp [h])
      simp only [lastLine] at hh ⊢
      rw [← List.append_assoc, List.rtakeWhile_concat, if_pos hc, hh, List.append_assoc]

theorem lastLine_eq_nil_iff {cs : List Char} :
    lastLine cs = [] ↔ cs = [] ∨ cs.getLast? = some '\n' := by
  rw [lastLine, List.rtakeWhile_eq_nil_iff]
  rcases List.eq_nil_or_concat cs with rfl | ⟨init, c, rfl⟩
  · simp
  · simp

theorem lineAround_newline (before cs after : List Char) :
    lineAround (before ++ '\n' :: cs) after = lineAround cs after := by
  rw [lineAround, lineAround, lastLine_newline]

/-- A position may move over any character but a newline. -/
theorem lineAround_cons {c : Char} (hc : c ≠ '\n') (before after : List Char) :
    lineAround (before ++ [c]) after = lineAround before (c :: after) := by
  have hb : (c != '\n') = true := by simpa using hc
  have hlast : lastLine (before ++ [c]) = lastLine before ++ [c] :=
    List.rtakeWhile_concat_pos _ _ _ hb
  simp only [lineAround, hlast, List.takeWhile_cons_of_pos (p := (· != '\n')) hb, List.append_assoc,
    List.singleton_append, List.mem_cons, hc.symm, false_or]

theorem splitLines_newline (line rest : List Char) :
    splitLines line ('\n' :: rest) = dropReturn line.reverse :: splitLines [] rest := by
  conv_lhs => unfold splitLines
  rw [if_pos rfl, dropReturn, List.getLast?_reverse]
  refine congrArg (· :: splitLines [] rest) ?_
  split
  · simp
  · next hr =>
    rw [if_neg]
    intro hreturn
    obtain ⟨before, hline⟩ := List.head?_eq_some_iff.mp hreturn
    exact hr before hline

theorem splitLines_cons {c : Char} (hc : c ≠ '\n') (line rest : List Char) :
    splitLines line (c :: rest) = splitLines (c :: line) rest := by
  conv_lhs => unfold splitLines
  rw [if_neg hc]

theorem splitLines_line {first : List Char} (hn : '\n' ∉ first) (line rest : List Char) :
    splitLines line (first ++ '\n' :: rest) =
      dropReturn (line.reverse ++ first) :: splitLines [] rest := by
  induction first generalizing line with
  | nil => simp [splitLines_newline]
  | cons c first ih =>
    have hc : c ≠ '\n' := fun h => hn (by simp [h])
    rw [List.cons_append, splitLines_cons hc, ih fun h => hn (by simp [h])]
    simp

theorem head?_splitLines {line : List Char} (hl : '\n' ∉ line) (after : List Char) :
    (splitLines line after).head? =
      if after = [] ∧ line = [] then none else some (lineAround line.reverse after) := by
  have hlast : lastLine line.reverse = line.reverse :=
    lastLine_of_not_mem (by rwa [List.mem_reverse])
  induction after generalizing line with
  | nil =>
    rw [lineAround, hlast]
    cases line <;> simp [splitLines]
  | cons c after ih =>
    by_cases hc : c = '\n'
    · subst hc
      simp [splitLines_newline, lineAround, hlast]
    · have hline : '\n' ∉ c :: line := by simp [Ne.symm hc, hl]
      rw [splitLines_cons hc, ih hline (lastLine_of_not_mem (by rwa [List.mem_reverse])),
        List.reverse_cons, lineAround_cons hc]
      simp

theorem splitLines_around {line : List Char} (hl : '\n' ∉ line) (before after : List Char) :
    (splitLines line (before ++ after))[before.count '\n']? =
      if after = [] ∧ lastLine (line.reverse ++ before) = [] then none
      else some (lineAround (line.reverse ++ before) after) := by
  induction before generalizing line with
  | nil =>
    have hr : '\n' ∉ line.reverse := by rwa [List.mem_reverse]
    have hhead := head?_splitLines hl after
    rw [List.head?_eq_getElem?] at hhead
    rw [List.nil_append, List.append_nil, lastLine_of_not_mem hr, List.count_nil, hhead]
    simp only [List.reverse_eq_nil_iff]
  | cons c before ih =>
    rw [List.cons_append]
    by_cases hc : c = '\n'
    · subst hc
      rw [splitLines_newline, List.count_cons_self, List.getElem?_cons_succ, ih List.not_mem_nil,
        List.reverse_nil, List.nil_append, lastLine_newline, lineAround_newline]
    · have hline : '\n' ∉ c :: line := by simp [Ne.symm hc, hl]
      rw [splitLines_cons hc, List.count_cons_of_ne hc, ih hline, List.reverse_cons,
        List.append_assoc, List.singleton_append]

/-- Only the end of a text is on no line: when there is no text after the last newline. -/
theorem Source.line?_around {src : Source} {before after : List Char}
    (h : src.text.toList = before ++ after) :
    src.line? (1 + before.count '\n') =
      if after = [] ∧ lastLine before = [] then none
      else some (String.ofList (lineAround before after)) := by
  have hlines := splitLines_around List.not_mem_nil before after
  rw [List.reverse_nil, List.nil_append] at hlines
  simp only [line?, cut, textLines, Nat.add_comm 1, CutSource.line?, h, List.getElem?_toArray,
    List.getElem?_map, hlines]
  exact apply_ite (Option.map String.ofList) _ _ _

theorem Source.line?_first {src : Source} (hn : '\n' ∉ src.text.toList)
    (hne : src.text.toList ≠ []) : src.line? 1 = some src.text := by
  have hl := src.line?_around (List.nil_append src.text.toList).symm
  have hall : src.text.toList.takeWhile (· != '\n') = src.text.toList := by
    rw [List.takeWhile_eq_self_iff]
    intro c hc
    simpa using ne_of_mem_of_not_mem hc hn
  rwa [List.count_nil, if_neg fun hnone => hne hnone.1, lineAround, if_neg hn, hall,
    lastLine_of_not_mem List.not_mem_nil, List.nil_append, String.ofList_toList] at hl

end ExprMachine
