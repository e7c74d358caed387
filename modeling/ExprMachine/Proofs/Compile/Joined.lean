import ExprMachine.Proofs.Compile.Acceptance
import ExprMachine.Proofs.Compile.Relabelling
import ExprMachine.Proofs.Token.Joined

/-! A text that ends in a semicolon can be compiled apart from what follows it: the mistakes of
the two texts are the mistakes of the whole, and so are the instructions. -/

namespace ExprMachine

def ParseError.shift (base : Place) (e : ParseError) : ParseError :=
  ⟨e.expected, e.found.map (Token.shift base), base.shift e.place⟩

namespace CompileError

def shift (base : Place) : CompileError → CompileError
  | lexical e => .lexical ⟨e.fault, base.shift e.place⟩
  | parse e => .parse (e.shift base)
  | internal message => .internal message

theorem message_shift (base : Place) (e : CompileError) : (e.shift base).message = e.message := by
  cases e with
  | lexical e => rfl
  | parse e =>
    obtain ⟨expected, found, place⟩ := e
    cases found <;> rfl
  | internal => rfl

end CompileError

def compileErrors (source : String) : List CompileError :=
  match compile source with
  | .ok _ => []
  | .error es => es

/-- A refused text names at least one error. -/
theorem compile_error_ne_nil {source : String} {es : List CompileError}
    (h : compile source = .error es) : es ≠ [] := by
  obtain ⟨e, -, rfl⟩ | ⟨s, r, -, -, -, hne, rfl⟩ := compile_error_cases h
  · exact List.cons_ne_nil _ _
  · exact fun hnil => hne (Array.toList_eq_nil_iff.mp hnil)

theorem exists_ok_of_no_errors {source : String} (h : compileErrors source = []) :
    ∃ c, compile source = .ok c := by
  cases hc : compile source with
  | ok c => exact ⟨c, rfl⟩
  | error es =>
    rw [compileErrors, hc] at h
    exact absurd h (compile_error_ne_nil hc)

/-! The literals of a text bound the constants of each of its parts. -/

theorem distinctLiterals_le {ts us : List Token}
    (h : ts.filterMap Token.constant? ⊆ us.filterMap Token.constant?) :
    distinctLiterals ts ≤ distinctLiterals us := by
  have hd : (ts.filterMap Token.constant?).dedup ⊆ (us.filterMap Token.constant?).dedup := by
    intro k hk
    exact List.mem_dedup.mpr (h (List.mem_dedup.mp hk))
  exact ((List.nodup_dedup _).subperm hd).length_le

theorem distinctLiterals_le_length (ts : List Token) : distinctLiterals ts ≤ ts.length :=
  Nat.le_trans (List.dedup_sublist _).length_le (List.length_filterMap_le _ _)

theorem constants_shift (base : Place) (ts : List Token) :
    (ts.map (Token.shift base)).filterMap Token.constant? = ts.filterMap Token.constant? := by
  rw [List.filterMap_map]
  rfl

theorem compileErrors_eq {source : String} {s : Scan} (hs : scan source = .ok s)
    (hl : distinctLiterals s.tokens ≤ Chunk.lastIndex + 1) :
    compileErrors source = (parse s.tokens).1.map (fun m => .parse (m.error s.finish)) := by
  by_cases hm : (parse s.tokens).1 = []
  · obtain ⟨hd, hn⟩ := parse_eq_iff.mp (Prod.ext hm rfl)
    obtain ⟨c, hc⟩ := compile_of_derives hs hl hd hn
    rw [compileErrors, hc, hm, List.map_nil]
  · rw [compileErrors, compile_of_mistakes hs hl hm]

/-! Mistakes further down in a text. -/

/-- The place of a text that follows the place `base` and is itself the last. -/
def Embedding.after (base : Place) : Embedding := ⟨base.shift, base.line - 1, fun _ => rfl, []⟩

theorem Embedding.tokens_after (base : Place) (ts : List Token) :
    (after base).tokens ts = ts.map (Token.shift base) :=
  List.append_nil _

theorem Mistake.error_before {m : Mistake} (hm : EndsStatement m.rest) (us : List Token)
    (finish finish' : Place) :
    ((Embedding.before us).mistake m).error finish' = m.error finish := by
  obtain ⟨init, t, he, -⟩ := hm
  obtain ⟨expected, rest⟩ := m
  simp only at he
  subst he
  simp only [Embedding.mistake, Embedding.tokens_before]
  cases init <;> rfl

theorem Mistake.error_after (base : Place) (m : Mistake) (finish : Place) :
    ((Embedding.after base).mistake m).error (base.shift finish) =
      (m.error finish).shift base := by
  obtain ⟨expected, rest⟩ := m
  cases rest <;> rfl

theorem EndsInSemicolon.endsStatement {p : String} {s : Scan} (he : EndsInSemicolon p)
    (hs : scan p = .ok s) : EndsStatement s.tokens := by
  obtain ⟨fs, hfs⟩ := he
  rw [scan_of_splits hfs.semicolon, tokensOf_semicolon] at hs
  cases hs
  exact ⟨_, _, rfl, rfl⟩

theorem parse_append {ts us : List Token} (h : EndsStatement ts) :
    parse (ts ++ us) = ((parse ts).1.map (Embedding.before us).mistake ++ (parse us).1,
      (parse ts).2 ++ (parse us).2) := by
  have hp := (parse_tokens (E := .before us) (.inr (.inr h))).1
  have hs : Stmt.down (Embedding.before us).lines = id := funext Stmt.down_zero
  rw [Embedding.tokens_before, hs, List.map_id] at hp
  exact hp

theorem parse_mistakes_end {ts : List Token} (h : EndsStatement ts) :
    ∀ m ∈ (parse ts).1, EndsStatement m.rest := by
  intro m hm
  -- a text that goes on is one whose mistakes must be inside
  have hc := (parse_tokens (E := .before ts) (.inr (.inr h))).2 m hm
  refine hc.resolve_left ?_
  obtain ⟨init, t, rfl, -⟩ := h
  simp [Embedding.before]

theorem parse_shift (base : Place) (ts : List Token) :
    parse (ts.map (Token.shift base)) = ((parse ts).1.map (Embedding.after base).mistake,
      (parse ts).2.map (Stmt.down (base.line - 1))) := by
  have hres : (Embedding.after base).Resumes ts := .inr (.inl rfl)
  have hp := (parse_tokens hres).1
  rw [Embedding.tokens_after] at hp
  rw [hp]
  show (_ ++ [], _ ++ []) = _
  rw [List.append_nil, List.append_nil]
  rfl

theorem Decodes.programCode_of_ok {source : String} {s : Scan} {c : Chunk} {ss : List Stmt}
    (hs : scan source = .ok s) (hp : parse s.tokens = ([], ss)) (hc : compile source = .ok c) :
    Decodes c 0 (programCode ss s.finish.line) := by
  obtain ⟨ss', hp', ha⟩ := (compile_eq_ok_iff hs).mp hc
  cases hp.symm.trans hp'
  obtain ⟨-, -, hdec⟩ := Chunk.addAll?_spec Chunk.aligned_empty (fun _ => programCode_plain) ha
  exact hdec

/-- The code of two texts, one after the other: only the last instruction halts. -/
theorem programCode_joined (ss ss' : List Stmt) (last n : Nat) :
    programCode (ss ++ ss'.map (Stmt.down n)) (last + n) =
      ss.flatMap Stmt.postorder ++ (programCode ss' last).map (Emission.down n) := by
  rw [programCode, List.flatMap_append, List.append_assoc, ← programCode_down, programCode]

section Joining

variable {p q : String} {sp sq : Scan} (hp : scan p = .ok sp) (he : EndsInSemicolon p)
  (hq : scan q = .ok sq) (hl : distinctLiterals (sp.tokens ++ sq.tokens) ≤ Chunk.lastIndex + 1)

omit hp he hq in
include hl in
theorem distinctLiterals_parts : distinctLiterals sp.tokens ≤ Chunk.lastIndex + 1 ∧
    distinctLiterals sq.tokens ≤ Chunk.lastIndex + 1 ∧
    distinctLiterals (sp.tokens ++ sq.tokens.map (Token.shift sp.finish)) ≤
      Chunk.lastIndex + 1 := by
  refine ⟨Nat.le_trans (distinctLiterals_le ?_) hl, Nat.le_trans (distinctLiterals_le ?_) hl, ?_⟩
  · rw [List.filterMap_append]
    exact List.subset_append_left _ _
  · rw [List.filterMap_append]
    exact List.subset_append_right _ _
  · rw [distinctLiterals, List.filterMap_append, constants_shift, ← List.filterMap_append]
    exact hl

include hp he hq hl

theorem compileErrors_append :
    compileErrors (p ++ q) =
      compileErrors p ++ (compileErrors q).map (CompileError.shift sp.finish) := by
  obtain ⟨hlp, hlq, hlw⟩ := distinctLiterals_parts hl
  have hend := he.endsStatement hp
  rw [compileErrors_eq (scan_append hp he hq) hlw, compileErrors_eq hp hlp,
    compileErrors_eq hq hlq, parse_append hend, parse_shift, List.map_append, List.map_map,
    List.map_map, List.map_map]
  congr 1
  · refine List.map_congr_left fun m hm => ?_
    exact congrArg CompileError.parse
      (Mistake.error_before (parse_mistakes_end hend m hm) _ sp.finish _)
  · refine List.map_congr_left fun m _ => ?_
    exact congrArg CompileError.parse (Mistake.error_after sp.finish m sq.finish)

omit hq hl in
theorem parse_joined {ssp ssq : List Stmt} (hpp : parse sp.tokens = ([], ssp))
    (hpq : parse sq.tokens = ([], ssq)) :
    parse (sp.tokens ++ sq.tokens.map (Token.shift sp.finish)) =
      ([], ssp ++ ssq.map (Stmt.down (sp.finish.line - 1))) := by
  rw [parse_append (he.endsStatement hp), parse_shift, hpp, hpq]
  rfl

theorem compile_append_of_ok {cp cq : Chunk} (hcp : compile p = .ok cp)
    (hcq : compile q = .ok cq) : ∃ c init last fs, compile (p ++ q) = .ok c ∧
      Decodes cp 0 (init ++ [⟨.op .halt, last⟩]) ∧ Decodes cq 0 fs ∧
      Decodes c 0 (init ++ fs.map (Emission.down (sp.finish.line - 1))) := by
  obtain ⟨-, -, hlw⟩ := distinctLiterals_parts hl
  obtain ⟨ssp, hpp, -⟩ := (compile_eq_ok_iff hp).mp hcp
  obtain ⟨ssq, hpq, -⟩ := (compile_eq_ok_iff hq).mp hcq
  have hs := scan_append hp he hq
  have hw := parse_joined hp he hpp hpq
  obtain ⟨hd, hn⟩ := parse_eq_iff.mp hw
  obtain ⟨c, hc⟩ := compile_of_derives hs hlw hd hn
  refine ⟨c, ssp.flatMap Stmt.postorder, sp.finish.line, programCode ssq sq.finish.line, hc,
    Decodes.programCode_of_ok hp hpp hcp, Decodes.programCode_of_ok hq hpq hcq, ?_⟩
  rw [← programCode_joined]
  exact Decodes.programCode_of_ok hs hw hc

end Joining

/-- Compiling a text that ends in a semicolon and another one after it finds the errors of the
one, then those of the other, and if there are none, the instructions likewise. -/
theorem compile_append (p q : String) (sp sq : Scan) (hp : scan p = .ok sp)
    (he : EndsInSemicolon p) (hq : scan q = .ok sq)
    (hl : distinctLiterals (sp.tokens ++ sq.tokens) ≤ 16777216) :
    scan (p ++ q) =
      .ok ⟨sp.tokens ++ sq.tokens.map (Token.shift sp.finish), sp.finish.shift sq.finish⟩ ∧
    compileErrors (p ++ q) =
      compileErrors p ++ (compileErrors q).map (CompileError.shift sp.finish) ∧
    (compileErrors (p ++ q)).map CompileError.message =
      (compileErrors p).map CompileError.message ++ (compileErrors q).map CompileError.message ∧
    (compileErrors p = [] → compileErrors q = [] → ∃ cp cq c init last fs,
      compile p = .ok cp ∧ compile q = .ok cq ∧ compile (p ++ q) = .ok c ∧
      Decodes cp 0 (init ++ [⟨.op .halt, last⟩]) ∧ Decodes cq 0 fs ∧
      Decodes c 0 (init ++ fs.map (Emission.down (sp.finish.line - 1)))) := by
  have herr := compileErrors_append hp he hq hl
  refine ⟨scan_append hp he hq, herr, ?_, ?_⟩
  · rw [herr, List.map_append, List.map_map]
    congr 1
    exact List.map_congr_left fun e _ => e.message_shift sp.finish
  · intro hpe hqe
    obtain ⟨cp, hcp⟩ := exists_ok_of_no_errors hpe
    obtain ⟨cq, hcq⟩ := exists_ok_of_no_errors hqe
    obtain ⟨c, init, last, fs, hc, hdp, hdq, hdc⟩ := compile_append_of_ok hp he hq hl hcp hcq
    exact ⟨cp, cq, c, init, last, fs, hcp, hcq, hc, hdp, hdq, hdc⟩

theorem compile_append_two_errors : ∃ sp sq, scan "-;" = .ok sp ∧ EndsInSemicolon "-;" ∧
    scan "\nprint 2" = .ok sq ∧ distinctLiterals (sp.tokens ++ sq.tokens) ≤ 16777216 ∧
    (compileErrors "-;\nprint 2").map CompileError.message =
      ["Expected expression. (at ';')", "Expected ';' after value. (at end)"] := by
  have hends : EndsInSemicolon "-;" :=
    ⟨[⟨.token .minus, ['-'], [';']⟩],
      .piece (front_longest (show front '-' [';'] = .ok _ from rfl)) (.stop [';'])⟩
  have hp : ((scan "-;").toOption.map fun s => s.tokens.length) = some 2 := by decide +kernel
  have hq : ((scan "\nprint 2").toOption.map fun s => s.tokens.length) = some 2 := by
    decide +kernel
  obtain ⟨sp, hp, hlp⟩ := exists_ok_of_toOption hp
  obtain ⟨sq, hq, hlq⟩ := exists_ok_of_toOption hq
  have hl : distinctLiterals (sp.tokens ++ sq.tokens) ≤ 16777216 := by
    refine Nat.le_trans (distinctLiterals_le_length _) ?_
    rw [List.length_append, hlp, hlq]
    decide
  refine ⟨sp, sq, hp, hends, hq, hl, ?_⟩
  obtain ⟨-, -, hm, -⟩ := compile_append "-;" "\nprint 2" sp sq hp hends hq hl
  have hmp : (compileErrors "-;").map CompileError.message =
      ["Expected expression. (at ';')"] := by decide +kernel
  have hmq : (compileErrors "\nprint 2").map CompileError.message =
      ["Expected ';' after value. (at end)"] := by decide +kernel
  have hpq : "-;" ++ "\nprint 2" = "-;\nprint 2" := by decide
  rw [hpq, hmp, hmq] at hm
  exact hm

end ExprMachine
