import ExprMachine.Proofs.Compile.Diagnostics
import ExprMachine.Proofs.Source.Reports

/-! Columns and the marks under them. The characters of the first line are counted from 0, those
behind a newline between tokens from 1, and those behind a newline in a string from 2. -/

namespace ExprMachine

/-- The column of the first character behind a newline in this piece. -/
def Front.newlineColumn (f : Front) : Nat := if f.piece = .blank then 1 else 2

/-- The column of the first character on the line that follows these pieces. -/
def firstColumn (fs : List Front) : Nat :=
  match (fs.filter ('\n' ∈ ·.text)).getLast? with
  | none => 0
  | some f => f.newlineColumn

theorem firstColumn_concat (fs : List Front) (f : Front) :
    firstColumn (fs ++ [f]) = if '\n' ∈ f.text then f.newlineColumn else firstColumn fs := by
  by_cases hf : '\n' ∈ f.text
  · simp [firstColumn, List.filter_append, hf]
  · simp [firstColumn, List.filter_append, hf]

namespace Place

/-- A newline sets the column, and any other character moves it on. -/
theorem column_foldl {step : Place → Char → Place} {first : Int}
    (hstep : ∀ p c, (step p c).column = if c = '\n' then first else p.column + 1) (p : Place)
    (cs : List Char) :
    (cs.foldl step p).column =
      if '\n' ∈ cs then first + (lastLine cs).length else p.column + cs.length := by
  induction cs using List.reverseRecOn with
  | nil => simp
  | append_singleton cs c ih =>
    rw [List.foldl_concat, hstep, lastLine_append]
    by_cases hc : c = '\n'
    · subst hc
      have hlast : lastLine ['\n'] = [] := by decide
      simp [hlast]
    · have hlast : lastLine [c] = [c] := lastLine_of_not_mem (by simp [Ne.symm hc])
      by_cases hcs : '\n' ∈ cs
      · simp [hc, Ne.symm hc, hcs, ih]
        omega
      · simp [hc, Ne.symm hc, hcs, ih]
        omega

theorem column_afterFront (p : Place) (f : Front) :
    (p.afterFront f).column =
      if '\n' ∈ f.text then (f.newlineColumn : Int) + (lastLine f.text).length - 1
      else p.column + f.text.length := by
  have hblank (p : Place) (c : Char) :
      (p.afterBlank c).column = if c = '\n' then 0 else p.column + 1 := by
    simp only [afterBlank, apply_ite Place.column]
  have hinner (p : Place) (c : Char) :
      (p.afterInner c).column = if c = '\n' then 1 else p.column + 1 := by
    simp only [afterInner, apply_ite Place.column]
  unfold afterFront
  split
  · next hf =>
    rw [column_foldl hblank, Front.newlineColumn, if_pos hf]
    split <;> omega
  · next hf =>
    rw [column_foldl hinner, Front.newlineColumn, if_neg hf]
    split <;> omega

/-- How far the place behind these pieces is from the start of its line. -/
theorem column_after (fs : List Front) :
    (start.after fs).column =
      (firstColumn fs : Int) + (lastLine (fs.flatMap Front.text)).length - 1 := by
  induction fs using List.reverseRecOn with
  | nil => rfl
  | append_singleton fs f ih =>
    have hafter : start.after (fs ++ [f]) = (start.after fs).afterFront f := by
      rw [after_append]
      rfl
    rw [hafter, column_afterFront, firstColumn_concat, List.flatMap_append, lastLine_append]
    simp only [List.flatMap_singleton]
    by_cases hf : '\n' ∈ f.text
    · simp [hf]
    · simp [hf, ih]
      omega

end Place

theorem lineAround_getElem? {c : Char} (hn : c ≠ '\n') (hr : c ≠ '\r') (before after : List Char) :
    (lineAround before (c :: after))[(lastLine before).length]? = some c := by
  have htake : (c :: after).takeWhile (· != '\n') = c :: after.takeWhile (· != '\n') :=
    List.takeWhile_cons_of_pos (by simpa using hn)
  generalize after.takeWhile (· != '\n') = rest at htake
  -- a carriage return that is dropped at the end of the line stands behind the character
  have hdrop : ∃ more, dropReturn (lastLine before ++ c :: rest) = lastLine before ++ c :: more := by
    rw [dropReturn]
    by_cases hlast : (lastLine before ++ c :: rest).getLast? = some '\r'
    · have hrest : rest ≠ [] := by
        rintro rfl
        simp [hr] at hlast
      refine ⟨rest.dropLast, ?_⟩
      rw [if_pos hlast, List.dropLast_append_of_ne_nil (List.cons_ne_nil c rest),
        List.dropLast_cons_of_ne_nil hrest]
    · exact ⟨rest, if_neg hlast⟩
  obtain ⟨more, hmore⟩ := hdrop
  rw [lineAround, htake]
  by_cases hafter : '\n' ∈ c :: after
  · simp [hafter, hmore]
  · simp [hafter]

/-- The place is that of the character `c`, but it counts the characters of the line from `first`
on, so the mark is as many characters to the right of `c`. -/
structure Source.Marked (src : Source) (p : Place) (before : List Char) (c : Char)
    (after : List Char) (first : Nat) : Prop where
  text : src.text.toList = before ++ c :: after
  line : p.line = 1 + before.count '\n'
  column : p.column = first + (lastLine before).length
  char : (lineAround before (c :: after))[(lastLine before).length]? = some c
  excerpt : first + (lastLine before).length ≤ Padding.widest →
    let shown := String.ofList (lineAround before (c :: after))
    let run := Padding.fill '~' (first + (lastLine before).length)
    Report.excerpt false src.cut p =
      .whole s!"in {src.name}, at line {p.line}, column {p.column}:\n{shown}\n{run}^\n"

theorem Source.marked_of {src : Source} {p : Place} {before after : List Char} {c : Char}
    {first : Nat} (htext : src.text.toList = before ++ c :: after) (hc : Front.isGap c = false)
    (hline : p.line = 1 + before.count '\n')
    (hcolumn : p.column = first + (lastLine before).length) :
    src.Marked p before c after first := by
  have hne : c ≠ '\n' ∧ c ≠ '\r' := by constructor <;> rintro rfl <;> cases hc
  refine ⟨htext, hline, hcolumn, lineAround_getElem? hne.1 hne.2 before after, ?_⟩
  intro hfits shown run
  have hecho := src.echoes_of_count htext (List.cons_ne_nil _ _) hline
  have hwidth : p.column.toNat = first + (lastLine before).length := by omega
  have hlook : src.cut.line? p.line = some _ := hecho
  rw [Report.excerpt_of_line false hlook, hwidth, Report.mark_fits false hfits,
    Written.append_of_whole rfl]
  have htip : run ++ "^" ++ "\n" = run ++ "^\n" := String.append_assoc
  show Written.whole (_ ++ (run ++ "^" ++ "\n")) = Written.whole (_ ++ run ++ "^\n")
  rw [htip, ← String.append_assoc]
  rfl

/-- Tokens and stray characters are marked where they stand on the first line, and too far right
on any other: by one column behind a newline between tokens, by two behind one in a string. -/
theorem Source.columns (src : Source) :
    (∀ s number t, scan src.text = .ok s → s.tokens[number]? = some t → ∃ fs f gs c,
      Splits src.text.toList (fs ++ f :: gs) [] ∧ (fs.filter (·.piece.isToken)).length = number ∧
      f.token? t.place = some t ∧ f.text.getLast? = some c ∧
      src.Marked t.place (fs.flatMap Front.text ++ f.text.dropLast) c (gs.flatMap Front.text)
        (firstColumn (fs ++ [f]))) ∧
    ∀ e, scan src.text = .error e → ∃ fs c rest, Splits src.text.toList fs (c :: rest) ∧
      Stuck (c :: rest) ∧ e.fault = (if c = '"' then .unterminated else .unexpected c) ∧
      src.Marked e.place (fs.flatMap Front.text) c rest (firstColumn fs) := by
  constructor
  · intro s number t hs ht
    obtain ⟨fs, hfs, rfl⟩ := scan_eq_ok_iff.mp hs
    obtain ⟨first, f, rest, rfl, hn, hf⟩ := tokensOf_getElem? ht
    obtain ⟨hpiece, -, hplace⟩ := Front.token?_eq_some_iff.mp hf
    have hlexeme := (hfs.longest f (by simp)).lexeme
    rw [hpiece] at hlexeme
    obtain ⟨init, c, htext, hgap⟩ := hlexeme.last_not_gap
    have hc := Front.ne_newline_of_not_gap hgap
    have hlast : lastLine [c] = [c] := lastLine_of_not_mem (by simp [Ne.symm hc])
    refine ⟨first, f, rest, c, hfs, hn, hplace ▸ hf, by simp [htext], ?_⟩
    rw [htext, List.dropLast_concat]
    refine marked_of (by simpa [htext] using hfs.text) hgap ?_ ?_
    · rw [hplace, Place.line_after]
      simp [htext, List.count_cons_of_ne hc, Place.start]
    · rw [hplace, Place.column_after, List.flatMap_append, List.flatMap_singleton, htext,
        ← List.append_assoc, lastLine_append, if_neg (by simp [Ne.symm hc]), List.length_append]
      simp only [List.length_singleton]
      omega
  · intro e he
    obtain ⟨fs, c, rest, hsplits, hstuck, rfl⟩ := scan_eq_error_iff.mp he
    have hc := hstuck.ne_newline
    refine ⟨fs, c, rest, hsplits, hstuck, rfl, marked_of hsplits.text hstuck.not_gap ?_ ?_⟩
    · simp only [Place.afterInner, if_neg hc, Place.line_after, Place.start]
    · simp only [Place.afterInner, if_neg hc, Place.column_after]
      omega

/-- A string of two lines behind a newline, and a character that begins no token behind it. -/
theorem Source.columns_lines :
    (let src : Source := ⟨.literal, "1;\n\"a\nb\";"⟩
      let quoted : Token := ⟨.string "a\nb", "\"a\nb\"", ⟨3, 3⟩⟩
      ∃ s before c after first, scan src.text = .ok s ∧ s.tokens[2]? = some quoted ∧
        src.Marked quoted.place before c after first) ∧
    (let src : Source := ⟨.literal, "\"a\nb\"@"⟩
      ∃ e before c after first, scan src.text = .error e ∧ e.place = ⟨2, 4⟩ ∧
        src.Marked e.place before c after first) := by
  constructor
  · intro src quoted
    have hscan : ((scan src.text).toOption.map fun s => s.tokens[2]?) = some (some quoted) := by
      decide +kernel
    obtain ⟨s, hs, ht⟩ := exists_ok_of_toOption hscan
    obtain ⟨htokens, -⟩ := src.columns
    obtain ⟨fs, f, gs, c, -, -, -, -, hmarked⟩ := htokens s 2 quoted hs ht
    exact ⟨s, _, c, _, _, hs, ht, hmarked⟩
  · intro src
    let e : LexicalError := ⟨.unexpected '@', ⟨2, 4⟩⟩
    have he : scan src.text = .error e := by decide +kernel
    obtain ⟨-, herrors⟩ := src.columns
    obtain ⟨fs, c, rest, -, -, -, hmarked⟩ := herrors e he
    exact ⟨e, _, c, rest, _, he, rfl, hmarked⟩

/-- The first character of the second line has column 1. -/
theorem column_behind_newline :
    scan "\n@" = .error ⟨.unexpected '@', ⟨2, 1⟩⟩ ∧ (lastLine "\n".toList).length = 0 :=
  ⟨by decide +kernel, by decide⟩

end ExprMachine
