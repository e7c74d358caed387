import ExprMachine.Chunk.Listing

/-! A line table as the list of the lines of all bytes. -/

namespace ExprMachine

def expandRuns (runs : List Run) : List Nat :=
  runs.flatMap fun run => List.replicate run.count run.line

namespace LineTable

def byteLines (t : LineTable) : List Nat := expandRuns t.runs.toList

/-- How many bytes the runs count. -/
def total (t : LineTable) : Nat := t.runs.toList.foldr (fun run n => run.count + n) 0

theorem length_byteLines (t : LineTable) : t.byteLines.length = t.total := by
  rw [byteLines, total]
  induction t.runs.toList with
  | nil => rfl
  | cons run runs ih =>
    rw [List.foldr_cons, ← ih]
    simp [expandRuns]

theorem byteLines_push (t : LineTable) (line : Nat) :
    (t.push line).byteLines = t.byteLines ++ [line] := by
  obtain ⟨⟨runs⟩⟩ := t
  rcases List.eq_nil_or_concat runs with rfl | ⟨init, run, rfl⟩
  · rfl
  · by_cases h : run.line = line
    · simp [push, byteLines, expandRuns, h, List.replicate_succ']
    · simp [push, byteLines, expandRuns, h]

theorem drop_runs (t : LineTable) {left : Nat} (h : left < t.runs.size) :
    t.runs.toList.drop (t.runs.size - (left + 1)) =
      t.runs[t.runs.size - (left + 1)] :: t.runs.toList.drop (t.runs.size - left) := by
  rw [List.drop_eq_getElem_cons (by simp; omega), Array.getElem_toList]
  congr 2
  omega

/-- The search sees the last `left` runs as the lines that they stand for. -/
theorem lineFrom?_eq (t : LineTable) {offset left start : Nat} (hl : left ≤ t.runs.size)
    (hs : start ≤ offset)
    (hw : start + (expandRuns (t.runs.toList.drop (t.runs.size - left))).length < Word.size) :
    t.lineFrom? offset left start =
      .ok (expandRuns (t.runs.toList.drop (t.runs.size - left)))[offset - start]? := by
  induction left generalizing start with
  | zero =>
    rw [lineFrom?, Nat.sub_zero, List.drop_of_length_le (by simp)]
    rfl
  | succ left ih =>
    have hlt : t.runs.size - (left + 1) < t.runs.size := by omega
    rw [t.drop_runs hl] at hw ⊢
    rw [lineFrom?, Array.getElem?_eq_getElem hlt]
    simp only [expandRuns, List.flatMap_cons, List.length_append, List.length_replicate] at hw ⊢
    rw [if_neg (by omega)]
    split
    · next h =>
      rw [List.getElem?_append_left (by rw [List.length_replicate]; omega),
        List.getElem?_replicate_of_lt (by omega)]
    · next h =>
      rw [ih (by omega) (by omega) (by simp only [expandRuns]; omega),
        List.getElem?_append_right (by rw [List.length_replicate]; omega),
        List.length_replicate, Nat.sub_sub]
      rfl

theorem lineAt?_eq {t : LineTable} (hw : t.byteLines.length < Word.size) (offset : Nat) :
    t.lineAt? offset = .ok t.byteLines[offset]? := by
  have h := t.lineFrom?_eq (Nat.le_refl _) (Nat.zero_le offset)
    (by rw [Nat.sub_self, List.drop_zero, Nat.zero_add]; exact hw)
  simp only [Nat.sub_self, List.drop_zero, Nat.sub_zero] at h
  exact h

/-- A search that is not refused finds the line, however large the table is. -/
theorem lineFrom?_of_ok (t : LineTable) {offset left start : Nat} {r : Option Nat}
    (hl : left ≤ t.runs.size) (hs : start ≤ offset) (h : t.lineFrom? offset left start = .ok r) :
    r = (expandRuns (t.runs.toList.drop (t.runs.size - left)))[offset - start]? := by
  induction left generalizing start with
  | zero =>
    cases h
    rw [Nat.sub_zero, List.drop_of_length_le (by simp)]
    rfl
  | succ left ih =>
    have hlt : t.runs.size - (left + 1) < t.runs.size := by omega
    rw [t.drop_runs hl]
    rw [lineFrom?, Array.getElem?_eq_getElem hlt] at h
    simp only [expandRuns, List.flatMap_cons] at h ⊢
    split at h
    · cases h
    split at h
    · next ho =>
      cases h
      rw [List.getElem?_append_left (by rw [List.length_replicate]; omega),
        List.getElem?_replicate_of_lt (by omega)]
    · next ho =>
      rw [ih (by omega) (by omega) h, List.getElem?_append_right (by rw [List.length_replicate]; omega),
        List.length_replicate, Nat.sub_sub]
      rfl

theorem size_eq {t : LineTable} (hw : t.byteLines.length < Word.size) :
    t.size = .ok t.byteLines.length := by
  have h (runs : List Run) (sum : Nat) (hr : sum + (expandRuns runs).length < Word.size) :
      runs.foldlM (fun sum run => Word.add sum run.count) sum =
        .ok (sum + (expandRuns runs).length) := by
    induction runs generalizing sum with
    | nil => rfl
    | cons run runs ih =>
      simp only [expandRuns, List.flatMap_cons, List.length_append, List.length_replicate] at hr ⊢
      rw [List.foldlM_cons, Word.add_eq (by omega)]
      have hi := ih (sum + run.count) (by simp only [expandRuns]; omega)
      rw [expandRuns, Nat.add_assoc] at hi
      exact hi
  have ht := h t.runs.toList 0 (by rw [Nat.zero_add]; exact hw)
  rw [Nat.zero_add] at ht
  exact ht

end LineTable

namespace Chunk

theorem lineAt_of_byteLines {c : Chunk} {offset line : Nat}
    (hw : c.lines.byteLines.length < Word.size)
    (h : c.lines.byteLines[offset]? = some line) : c.lineAt offset = .ok line := by
  rw [lineAt, LineTable.lineAt?_eq hw, h]

/-- The line of a byte. Past the end of the table it is the line of the last run. -/
def lineEntry (c : Chunk) (offset : Nat) : Nat :=
  c.lines.byteLines[offset]?.getD (c.lines.last?.getD 0)

theorem lineAt_eq {c : Chunk} (hw : c.lines.byteLines.length < Word.size) (offset : Nat) :
    c.lineAt offset = .ok (c.lineEntry offset) := by
  rw [lineAt, LineTable.lineAt?_eq hw, lineEntry]
  cases c.lines.byteLines[offset]? <;> rfl

theorem lineAt_of_ok {c : Chunk} {offset line : Nat} (h : c.lineAt offset = .ok line) :
    c.lineEntry offset = line := by
  unfold lineAt at h
  have hfound {r : Option Nat} (hr : c.lines.lineAt? offset = .ok r) :
      r = c.lines.byteLines[offset]? := by
    have ho := c.lines.lineFrom?_of_ok (Nat.le_refl _) (Nat.zero_le offset) hr
    rwa [Nat.sub_self, List.drop_zero, Nat.sub_zero] at ho
  rw [lineEntry]
  split at h
  · next hr =>
    cases h
    rw [← hfound hr, Option.getD_some]
  · next hr =>
    cases h
    rw [← hfound hr, Option.getD_none]
  · cases h

theorem exists_instructionAt {c : Chunk} (hw : c.lines.byteLines.length < Word.size)
    {offset : Nat} (ho : c.code[offset]? = none → offset + 1 < Word.size) :
    ∃ r, c.instructionAt offset = .ok r := by
  have hm : ∃ margin, c.margin offset = .ok margin := by
    simp only [margin, lineAt_eq hw, bind, Except.bind]
    split <;> exact ⟨_, rfl⟩
  obtain ⟨margin, hm⟩ := hm
  simp only [instructionAt, hm, bind, Except.bind]
  cases hc : c.code[offset]? with
  | none =>
    simp only [Word.add_eq (ho hc)]
    exact ⟨_, rfl⟩
  | some byte => exact ⟨_, rfl⟩

end Chunk

end ExprMachine
