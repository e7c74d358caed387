import ExprMachine.Proofs.Source.Lines
import ExprMachine.Report

/-! What is written of the reports of a compiler. A mark that is too wide ends them behind the line
that it belongs to. -/

namespace ExprMachine

namespace Written

theorem join_cons (w : Written) (ws : List Written) : join (w :: ws) = w.append (join ws) := rfl

theorem append_of_whole {a : Written} (h : a.refusal = none) (b : Written) :
    a.append b = ⟨a.text ++ b.text, b.refusal⟩ := by
  rw [append, h]

theorem append_of_refused {a : Written} {r : Refusal} (h : a.refusal = some r) (b : Written) :
    a.append b = a := by
  rw [append, h]

theorem join_of_whole {ws : List Written} (h : ∀ w ∈ ws, w.refusal = none) :
    join ws = whole (String.join (ws.map Written.text)) := by
  induction ws with
  | nil => rfl
  | cons w ws ih =>
    obtain ⟨hw, hws⟩ := List.forall_mem_cons.mp h
    rw [join_cons, append_of_whole hw, ih hws, List.map_cons, String.join_cons]
    rfl

theorem join_of_refused {done : List Written} (hd : ∀ w ∈ done, w.refusal = none) {w : Written}
    {r : Refusal} (hw : w.refusal = some r) (rest : List Written) :
    join (done ++ w :: rest) = ⟨String.join (done.map Written.text) ++ w.text, some r⟩ := by
  induction done with
  | nil =>
    rw [List.nil_append, join_cons, append_of_refused hw, List.map_nil]
    simp [String.join, ← hw]
  | cons d done ih =>
    obtain ⟨hd, hdone⟩ := List.forall_mem_cons.mp hd
    rw [List.cons_append, join_cons, append_of_whole hd, ih hdone, List.map_cons, String.join_cons,
      String.append_assoc]

end Written

namespace Report

/-- The mark for a mistake is not too wide. There is none for a line that is not there. -/
def MarkFits (source : CutSource) (e : CompileError) : Prop :=
  ∀ p, e.place? = some p → source.line? p.line ≠ none → p.column.toNat ≤ Padding.widest

/-- What is written of an error whose mark is too wide. -/
def unmarked (color : Bool) (name : String) (e : CompileError) (p : Place) (text : String) :
    String :=
  headline color (label e) e.message ++
    s!"in {name}, at line {p.line}, column {p.column}:\n" ++ text ++ "\n"

/-- The errors are reported up to one whose mark is too wide. -/
def CutShort (color : Bool) (source : CutSource) (errors : List CompileError) (report : String) :
    Prop :=
  ∃ done e rest p text, errors = done ++ e :: rest ∧ (∀ d ∈ done, MarkFits source d) ∧
    e.place? = some p ∧ source.line? p.line = some text ∧ Padding.widest < p.column.toNat ∧
    report = String.join (done.map fun d => (compileError color source d).text) ++
      unmarked color source.name e p text

variable {color : Bool} {source : CutSource} {e : CompileError} {p : Place} {text : String}

theorem mark_fits (color : Bool) {width : Nat} (h : width ≤ Padding.widest) :
    mark color width = .whole (Ink.blue.paint color (Padding.fill '~' width) ++
      Ink.blue.paint color "^" ++ "\n") := by
  rw [mark, Padding.checkWidth, if_pos h]
  rfl

theorem mark_too_wide (color : Bool) {width : Nat} (h : Padding.widest < width) :
    mark color width = ⟨"", some .fillTooWide⟩ := by
  rw [mark, Padding.checkWidth, if_neg (Nat.not_le_of_lt h)]

theorem excerpt_of_line (color : Bool) (h : source.line? p.line = some text) :
    excerpt color source p =
      (Written.whole s!"in {source.name}, at line {p.line}, column {p.column}:\n{text}\n").append
        (mark color p.column.toNat) := by
  simp only [excerpt, h]
  congr 2

theorem not_markFits (hp : e.place? = some p) (hl : source.line? p.line = some text)
    (hw : Padding.widest < p.column.toNat) : ¬MarkFits source e :=
  fun hfits => absurd (hfits p hp (by simp [hl])) (Nat.not_le_of_lt hw)

/-- Of a single error the line is written that it is on. -/
theorem CutShort.eq_unmarked {report : String} (h : CutShort color source [e] report)
    (hp : e.place? = some p) (hl : source.line? p.line = some text) :
    report = unmarked color source.name e p text := by
  obtain ⟨done, e', rest, p', text', he, -, hp', hl', -, rfl⟩ := h
  obtain ⟨rfl, rfl, -⟩ : done = [] ∧ e = e' ∧ rest = [] := by
    cases done with
    | nil => simpa [eq_comm] using he
    | cons d done => simp at he
  cases hp.symm.trans hp'
  cases hl.symm.trans hl'
  exact String.empty_append

theorem compileError_fits (color : Bool) (h : MarkFits source e) :
    (compileError color source e).refusal = none := by
  unfold compileError
  cases hp : e.place? with
  | none => rfl
  | some p =>
    show (excerpt color source p).refusal = none
    cases hl : source.line? p.line with
    | none => simp only [excerpt, hl, Written.whole]
    | some text =>
      have hw := h p hp (by simp [hl])
      rw [excerpt_of_line color hl, mark_fits color hw]
      rfl

theorem compileError_too_wide (color : Bool) (h : ¬MarkFits source e) :
    ∃ p text, e.place? = some p ∧ source.line? p.line = some text ∧
      Padding.widest < p.column.toNat ∧
      compileError color source e = ⟨unmarked color source.name e p text, some .fillTooWide⟩ := by
  simp only [MarkFits, not_forall, not_le] at h
  obtain ⟨p, hp, hline, hw⟩ := h
  obtain ⟨text, hl⟩ := Option.ne_none_iff_exists'.mp hline
  refine ⟨p, text, hp, hl, hw, ?_⟩
  simp only [compileError, hp, excerpt_of_line color hl, mark_too_wide color hw, Written.append,
    Written.whole, unmarked, String.append_empty, String.append_assoc]
  rfl

theorem verdict_fits (color : Bool) (source : Source) {errors : List CompileError}
    (h : ∀ e ∈ errors, MarkFits source.cut e) :
    verdict color source (.compileErrors errors) =
      .whole (String.join (errors.map fun e => (compileError color source.cut e).text)) := by
  have hwhole : ∀ w ∈ errors.map (compileError color source.cut), w.refusal = none := by
    intro w hw
    obtain ⟨e, he, rfl⟩ := List.mem_map.mp hw
    exact compileError_fits color (h e he)
  rw [verdict, Written.join_of_whole hwhole, List.map_map]
  rfl

/-- The first mark that is too wide ends the report. -/
theorem verdict_cutShort (color : Bool) (source : Source) {errors : List CompileError}
    (h : ¬∀ e ∈ errors, MarkFits source.cut e) :
    ∃ report, CutShort color source.cut errors report ∧
      verdict color source (.compileErrors errors) = ⟨report, some .fillTooWide⟩ := by
  classical
  obtain ⟨e, hfirst⟩ : ∃ e, errors.find? (fun e => ¬MarkFits source.cut e) = some e := by
    rw [← Option.isSome_iff_exists, List.find?_isSome]
    simpa using h
  obtain ⟨hwide, done, rest, rfl, hdone⟩ := List.find?_eq_some_iff_append.mp hfirst
  have hdone : ∀ d ∈ done, MarkFits source.cut d := by simpa using hdone
  obtain ⟨p, text, hp, hl, hw, he⟩ := compileError_too_wide color (of_decide_eq_true hwide)
  refine ⟨_, ⟨done, e, rest, p, text, rfl, hdone, hp, hl, hw, rfl⟩, ?_⟩
  have hwhole : ∀ w ∈ done.map (compileError color source.cut), w.refusal = none := by
    intro w hw
    obtain ⟨d, hd, rfl⟩ := List.mem_map.mp hw
    exact compileError_fits color (hdone d hd)
  rw [verdict, List.map_append, List.map_cons,
    Written.join_of_refused hwhole (congrArg Written.refusal he), List.map_map, he]
  rfl

end Report

end ExprMachine
