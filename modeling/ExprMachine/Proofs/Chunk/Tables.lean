import ExprMachine.Chunk.Limits
import ExprMachine.Proofs.Chunk.Writing
import Mathlib.Data.List.Chain

/-! Line tables read as lists of lines. A table that is made by pushing lines is the shortest one
that stands for them, so the lines decide it. -/

namespace ExprMachine

theorem expandRuns_append (runs runs' : List Run) :
    expandRuns (runs ++ runs') = expandRuns runs ++ expandRuns runs' :=
  List.flatMap_append

namespace LineTable

/-- The table of lines that are pushed one after the other. -/
def ofLines (lines : List Nat) : LineTable := lines.foldl push empty

theorem ofLines_append (lines : List Nat) (line : Nat) :
    ofLines (lines ++ [line]) = (ofLines lines).push line := by
  rw [ofLines, List.foldl_append]
  rfl

/-- The table with these runs. -/
def ofRuns (runs : List Run) : LineTable := ⟨runs.toArray⟩

/-- No run is empty, and no run goes on with the line of the one before it. -/
structure Tight (t : LineTable) : Prop where
  counted : ∀ run ∈ t.runs.toList, 1 ≤ run.count
  changing : t.runs.toList.IsChain fun run next => run.line ≠ next.line

theorem tight_empty : empty.Tight := ⟨nofun, .nil⟩

theorem tight_append_iff {init : List Run} {run : Run} :
    (ofRuns (init ++ [run])).Tight ↔
      (ofRuns init).Tight ∧ 1 ≤ run.count ∧ ∀ last ∈ init.getLast?, last.line ≠ run.line := by
  have hlast : (∀ last ∈ init.getLast?, ∀ next ∈ [run].head?, last.line ≠ next.line) ↔
      ∀ last ∈ init.getLast?, last.line ≠ run.line := by simp
  constructor
  · rintro ⟨hcount, hchange⟩
    obtain ⟨hinit, -, hl⟩ := List.isChain_append.mp hchange
    exact ⟨⟨fun r hr => hcount r (List.mem_append_left _ hr), hinit⟩, hcount run (by simp [ofRuns]),
      hlast.mp hl⟩
  · rintro ⟨⟨hcount, hinit⟩, hrun, hl⟩
    refine ⟨fun r hr => ?_, List.isChain_append.mpr ⟨hinit, .singleton _, hlast.mpr hl⟩⟩
    rcases List.mem_append.mp hr with hr | hr
    · exact hcount r hr
    · exact List.mem_singleton.mp hr ▸ hrun

/-! A line is added to the last run or as a run of its own. -/

theorem push_same (init : List Run) (line count : Nat) :
    (ofRuns (init ++ [.mk line count])).push line = ofRuns (init ++ [.mk line (count + 1)]) := by
  simp [push, ofRuns]

theorem push_other {runs : List Run} {line : Nat} (h : ∀ run ∈ runs.getLast?, run.line ≠ line) :
    (ofRuns runs).push line = ofRuns (runs ++ [.mk line 1]) := by
  simp only [push, ofRuns, List.back?_toArray]
  split
  · next run hlast => simp [if_neg (h run hlast)]
  · simp

theorem push_cases (t : LineTable) (line : Nat) :
    (∃ init count, t = ofRuns (init ++ [.mk line count]) ∧
      t.push line = ofRuns (init ++ [.mk line (count + 1)])) ∨
    (∀ run ∈ t.runs.toList.getLast?, run.line ≠ line) ∧
      t.push line = ofRuns (t.runs.toList ++ [.mk line 1]) := by
  obtain ⟨⟨runs⟩⟩ := t
  by_cases h : ∀ run ∈ runs.getLast?, run.line ≠ line
  · exact .inr ⟨h, push_other h⟩
  · push Not at h
    obtain ⟨run, hlast, rfl⟩ := h
    obtain ⟨init, rfl⟩ := List.getLast?_eq_some_iff.mp hlast
    exact .inl ⟨init, run.count, rfl, push_same init run.line run.count⟩

theorem Tight.push {t : LineTable} (h : t.Tight) (line : Nat) : (t.push line).Tight := by
  rcases t.push_cases line with ⟨init, count, rfl, ht⟩ | ⟨hlast, ht⟩ <;>
    rw [ht, tight_append_iff]
  · obtain ⟨hinit, -, hlast⟩ := tight_append_iff.mp h
    exact ⟨hinit, Nat.le_add_left 1 count, hlast⟩
  · exact ⟨h, Nat.le_refl 1, hlast⟩

theorem last?_push (t : LineTable) (line : Nat) : (t.push line).last? = some line := by
  rcases t.push_cases line with ⟨init, count, -, ht⟩ | ⟨-, ht⟩ <;> rw [ht] <;>
    simp [last?, ofRuns]

theorem byteLines_ofLines (lines : List Nat) : (ofLines lines).byteLines = lines := by
  induction lines using List.reverseRecOn with
  | nil => rfl
  | append_singleton lines line ih => rw [ofLines_append, byteLines_push, ih]

theorem tight_ofLines (lines : List Nat) : (ofLines lines).Tight := by
  induction lines using List.reverseRecOn with
  | nil => exact tight_empty
  | append_singleton lines line ih => rw [ofLines_append]; exact ih.push line

theorem last?_ofLines (lines : List Nat) : (ofLines lines).last? = lines.getLast? := by
  induction lines using List.reverseRecOn with
  | nil => rfl
  | append_singleton lines line _ => rw [ofLines_append, last?_push, List.getLast?_append]; rfl

theorem foldl_push_replicate (init : List Run) (line count n : Nat) :
    (List.replicate n line).foldl push (ofRuns (init ++ [.mk line count])) =
      ofRuns (init ++ [.mk line (count + n)]) := by
  induction n generalizing count with
  | zero => rfl
  | succ n ih => rw [List.replicate_succ, List.foldl_cons, push_same, ih, Nat.add_right_comm,
      Nat.add_assoc]

/-- A tight table is what the pushes of its own lines make. -/
theorem ofLines_expandRuns {runs : List Run} (h : (ofRuns runs).Tight) :
    ofLines (expandRuns runs) = ofRuns runs := by
  induction runs using List.reverseRecOn with
  | nil => rfl
  | append_singleton init run ih =>
    obtain ⟨hinit, hcount, hlast⟩ := tight_append_iff.mp h
    obtain ⟨n, hn⟩ : ∃ n, run.count = 1 + n := Nat.exists_eq_add_of_le hcount
    have hrun : expandRuns [run] = run.line :: List.replicate n run.line := by
      simp [expandRuns, hn, Nat.add_comm 1 n, List.replicate_succ]
    have hi := ih hinit
    rw [ofLines] at hi ⊢
    rw [expandRuns_append, List.foldl_append, hi, hrun, List.foldl_cons, push_other hlast,
      foldl_push_replicate, ← hn]

theorem tight_iff (t : LineTable) : t.Tight ↔ ofLines t.byteLines = t :=
  ⟨ofLines_expandRuns, fun h => h ▸ tight_ofLines _⟩

theorem count_le_total {t : LineTable} {run : Run} (h : run ∈ t.runs.toList) :
    run.count ≤ t.total := by
  rw [total]
  generalize t.runs.toList = runs at h ⊢
  induction runs with
  | nil => cases h
  | cons first runs ih =>
    rw [List.foldr_cons]
    rcases List.mem_cons.mp h with rfl | h
    · exact Nat.le_add_right _ _
    · exact Nat.le_trans (ih h) (Nat.le_add_left _ _)

theorem pushChecked_eq {t : LineTable} (h : t.total < Word.size - 1) (line : Nat) :
    t.pushChecked line = .ok (t.push line) := by
  unfold pushChecked
  split
  · next run hlast =>
    have hmem : run ∈ t.runs.toList := Array.mem_toList_iff.mpr (Array.mem_of_back? hlast)
    have hle := count_le_total hmem
    rw [Word.add_eq (by omega)]
    split <;> rfl
  · rfl

/-- A size that is not refused counts the lines, however large the table is. -/
theorem size_of_ok {t : LineTable} {n : Nat} (h : t.size = .ok n) : n = t.byteLines.length := by
  have hsum (runs : List Run) (sum : Nat)
      (hr : runs.foldlM (fun sum run => Word.add sum run.count) sum = .ok n) :
      n = sum + (expandRuns runs).length := by
    induction runs generalizing sum with
    | nil =>
      cases hr
      rfl
    | cons run runs ih =>
      rw [List.foldlM_cons, Word.add] at hr
      split at hr
      · rw [ih (sum + run.count) hr]
        simp only [expandRuns, List.flatMap_cons, List.length_append, List.length_replicate]
        rw [Nat.add_assoc]
      · cases hr
  rw [hsum t.runs.toList 0 h, Nat.zero_add, byteLines]

theorem isEmpty_iff (t : LineTable) : t.isEmpty = true ↔ t.last? = none := by
  obtain ⟨⟨runs⟩⟩ := t
  cases runs using List.reverseRecOn <;> simp [isEmpty, last?]

theorem isEmpty_ofLines (lines : List Nat) :
    (ofLines lines).isEmpty = true ↔ (ofLines lines).size = .ok 0 := by
  rw [isEmpty_iff, last?_ofLines, List.getLast?_eq_none_iff]
  constructor
  · rintro rfl
    rfl
  · intro h
    have hlength := size_of_ok h
    rw [byteLines_ofLines] at hlength
    exact List.length_eq_zero_iff.mp hlength.symm

theorem Tight.last?_eq {t : LineTable} (h : t.Tight) : t.last? = t.byteLines.getLast? := by
  rw [← t.tight_iff.mp h, last?_ofLines, byteLines_ofLines]

theorem total_ofLines (lines : List Nat) : (ofLines lines).total = lines.length := by
  rw [← length_byteLines, byteLines_ofLines]

theorem foldlM_pushChecked {lines : List Nat} (h : lines.length < Word.size) :
    lines.foldlM pushChecked empty = .ok (ofLines lines) := by
  induction lines using List.reverseRecOn with
  | nil => rfl
  | append_singleton lines line ih =>
    rw [List.length_append, List.length_singleton] at h
    rw [List.foldlM_append, ih (by omega), ofLines_append]
    have hp : (ofLines lines).pushChecked line = .ok ((ofLines lines).push line) :=
      pushChecked_eq (by rw [total_ofLines]; omega) line
    simp only [bind, Except.bind, List.foldlM_cons, List.foldlM_nil, hp]
    rfl

end LineTable

namespace Chunk

theorem lasting_tight : Lasting fun c => c.lines.Tight where
  write _ _ line h := h.push line
  append _ _ h := h

theorem tight_written (calls : List ChunkCall) : (written calls).lines.Tight :=
  lasting_tight.run LineTable.tight_empty calls

/-- Past the end of the code stands the line of the last byte. -/
theorem lineAt_past_end {c : Chunk} (ha : c.Aligned) (ht : c.lines.Tight)
    (hw : c.code.size < Word.size) {offset : Nat} (h : c.code.size ≤ offset) :
    c.lineAt offset = .ok (c.lines.byteLines.getLast?.getD 0) := by
  have hlength : c.lines.byteLines.length = c.code.size := ha
  rw [lineAt_eq (by rwa [hlength]), lineEntry, List.getElem?_eq_none (by rwa [hlength]),
    Option.getD_none, ht.last?_eq]

end Chunk

/-- A table whose counts come to less than the last word is the list of its lines: each offset
finds its element, the size is the length, and a line that is pushed comes last. A table of pushed
lines has no empty runs and no two neighbours of one line, and such a table is made by its own
lines and no others. It is empty exactly if its size is 0, and its last line is the last pushed.
In a chunk that is written call by call the table has as many lines as the code has bytes, and
past the end of the code stands the line of the last byte. No chunk has more bytes than a word
counts. -/
theorem LineTable.byteLines_faithful :
    (∀ t : LineTable, t.total < Word.size - 1 →
      (∀ i, t.lineAt? i = .ok t.byteLines[i]?) ∧ t.size = .ok t.byteLines.length ∧
      ∀ line, t.pushChecked line = .ok (t.push line) ∧
        (t.push line).byteLines = t.byteLines ++ [line] ∧
        ∀ i, (t.push line).lineAt? i = .ok (t.byteLines ++ [line])[i]?) ∧
    (∀ lines, (ofLines lines).byteLines = lines ∧ (ofLines lines).Tight ∧
      ((ofLines lines).isEmpty = true ↔ (ofLines lines).size = .ok 0) ∧
      (ofLines lines).last? = lines.getLast? ∧
      (lines.length < Word.size → lines.foldlM pushChecked empty = .ok (ofLines lines))) ∧
    (∀ lines lines', ofLines lines = ofLines lines' ↔ lines = lines') ∧
    (∀ t : LineTable, t.Tight ↔ ofLines t.byteLines = t) ∧
    ∀ calls, (Chunk.written calls).code.size < Word.size →
      (Chunk.written calls).lines.size = .ok (Chunk.written calls).code.size ∧
      ∀ offset, (Chunk.written calls).code.size ≤ offset → (Chunk.written calls).lineAt offset =
        .ok ((Chunk.written calls).lines.byteLines.getLast?.getD 0) := by
  refine ⟨fun t ht => ?_, fun lines => ?_, fun lines lines' => ?_, tight_iff, fun calls hw => ?_⟩
  · have hlength := t.length_byteLines
    refine ⟨lineAt?_eq (by omega), size_eq (by omega), fun line => ?_⟩
    have hpush := t.byteLines_push line
    refine ⟨pushChecked_eq ht line, hpush, fun i => ?_⟩
    rw [← hpush]
    refine lineAt?_eq ?_ i
    rw [hpush, List.length_append, List.length_singleton]
    omega
  · exact ⟨byteLines_ofLines lines, tight_ofLines lines, isEmpty_ofLines lines,
      last?_ofLines lines, foldlM_pushChecked⟩
  · refine ⟨fun h => ?_, congrArg ofLines⟩
    rw [← byteLines_ofLines lines, h, byteLines_ofLines]
  · have ha := Chunk.aligned_written calls
    have hlength : (Chunk.written calls).lines.byteLines.length =
        (Chunk.written calls).code.size := ha
    refine ⟨?_, fun offset => Chunk.lineAt_past_end ha (Chunk.tight_written calls) hw⟩
    rw [size_eq (by rwa [hlength]), hlength]

/-- Runs without bytes, and two runs of one line, which no pushes make. -/
theorem LineTable.byteLines_faithful_untidy :
    let t : LineTable := ofRuns [⟨9, 0⟩, ⟨1, 2⟩, ⟨1, 1⟩, ⟨9, 0⟩, ⟨2, 1⟩, ⟨9, 0⟩]
    let c := Chunk.written [.writeOp .nil 3, .writeConstant (.text "a") 4]
    t.total < Word.size - 1 ∧ c.code.size < Word.size ∧
    t.lineAt? 2 = .ok (some 1) ∧ t.lineAt? 3 = .ok (some 2) ∧ t.lineAt? 4 = .ok none ∧
    t.size = .ok 4 ∧ (t.push 9).byteLines = [1, 1, 1, 2, 9] ∧ ¬ t.Tight ∧
    c.lines.size = .ok c.code.size ∧ c.lineAt 10 = .ok 4 := by
  intro t c
  have hcode : c.code.size = 3 := by decide +kernel
  have hlines : c.lines.byteLines = [3, 4, 4] := by decide +kernel
  have hw : c.code.size < Word.size := by rw [hcode]; decide
  obtain ⟨hat, hsize, hpush⟩ := byteLines_faithful.1 t (by decide)
  obtain ⟨hcount, hpast⟩ := byteLines_faithful.2.2.2.2
    [.writeOp .nil 3, .writeConstant (.text "a") 4] hw
  have hten : c.lineAt 10 = .ok (c.lines.byteLines.getLast?.getD 0) :=
    hpast 10 (by rw [hcode]; decide)
  rw [hlines] at hten
  exact ⟨by decide, hw, hat 2, hat 3, hat 4, hsize, (hpush 9).2.1,
    fun h => absurd ((byteLines_faithful.2.2.2.1 t).mp h) (by decide), hcount, hten⟩

end ExprMachine
