import ExprMachine.Proofs.Compile.Heights
import ExprMachine.Proofs.Compile.Joined
import ExprMachine.Proofs.Content.History
import ExprMachine.Proofs.Machine.Endurance

/-! Interpreting two texts in turn is the same as interpreting them as one, if the first ends
in a semicolon. -/

namespace ExprMachine

def Ending.down (n : Nat) : Ending → Ending
  | halted => .halted
  | failed e => .failed ⟨e.line + n, e.fault⟩
  | refused r => .refused r

def Verdict.down (n : Nat) : Verdict → Verdict
  | ok => .ok
  | compileErrors es => .compileErrors es
  | runtimeError e => .runtimeError ⟨e.line + n, e.fault⟩

theorem Ending.verdict_down (n : Nat) (e : Ending) :
    (e.down n).verdict = e.verdict.map (Verdict.down n) := by
  cases e <;> rfl

namespace ContentMachine

/-- The machine with earlier output. -/
def after (printed : List String) (m : ContentMachine) : ContentMachine :=
  { m with output := printed ++ m.output }

variable (printed : List String)

theorem push_after (m : ContentMachine) (v : Datum) :
    (m.after printed).push v = (m.push v).map (after printed) := by
  unfold push after
  split <;> rfl

theorem withTop_after (m : ContentMachine)
    {f g : Datum → List Datum → Except Fault ContentMachine}
    (hf : ∀ v rest, g v rest = (f v rest).map (after printed)) :
    (m.after printed).withTop g = (m.withTop f).map (after printed) := by
  obtain ⟨capacity, stack, output⟩ := m
  cases stack with
  | nil => rfl
  | cons v rest => exact hf v rest

theorem unary_after (m : ContentMachine) (f : Datum → Except Fault Datum) :
    (m.after printed).unary f = (m.unary f).map (after printed) := by
  refine withTop_after printed m fun v rest => ?_
  cases f v <;> rfl

theorem binary_after (m : ContentMachine) (f : Datum → Datum → Except Fault Datum) :
    (m.after printed).binary f = (m.binary f).map (after printed) := by
  obtain ⟨capacity, stack, output⟩ := m
  match stack with
  | [] | [_] => rfl
  | right :: left :: rest =>
    simp only [binary, after]
    cases f left right <;> rfl

theorem execute_after (m : ContentMachine) (i : Instruction) :
    (m.after printed).execute i = (m.execute i).map (after printed) := by
  cases i with
  | load k => cases k <;> exact push_after printed m _
  | op code =>
    cases code with
    | halt | constant | constantLong => rfl
    | nil | yes | no => exact push_after printed m _
    | pop => exact withTop_after printed m fun _ _ => rfl
    | print =>
      refine withTop_after printed m fun v rest => ?_
      simp only [after, Except.map, List.append_assoc]
    | equal | greater | less | subtract | multiply | divide | add => exact binary_after printed m _
    | not | negate => exact unary_after printed m _

theorem runAll_ends (es : List Emission) (m : ContentMachine) :
    (runAll es m).1 = .halted ∨ ∃ e, (runAll es m).1 = .failed e := by
  induction es generalizing m with
  | nil => exact .inl rfl
  | cons e es ih =>
    by_cases hh : e.instruction = .op .halt
    · rw [runAll, if_pos hh]
      exact .inl rfl
    · rw [runAll_cons hh]
      cases m.execute e.instruction with
      | ok m' => exact ih m'
      | error fault => exact .inr ⟨_, rfl⟩

/-- Neither earlier output nor the lines of the instructions matter to a run. -/
theorem runAll_after (es : List Emission) (n : Nat) (m : ContentMachine) :
    runAll (es.map (Emission.down n)) (m.after printed) =
      ((runAll es m).1.down n, (runAll es m).2.after printed) := by
  induction es generalizing m with
  | nil => rfl
  | cons e es ih =>
    by_cases hh : e.instruction = .op .halt
    · rw [List.map_cons, runAll, runAll, if_pos hh, if_pos (show (e.down n).instruction = _ from hh)]
      rfl
    · rw [List.map_cons, runAll_cons hh, runAll_cons (show (e.down n).instruction ≠ _ from hh),
        Emission.down, execute_after]
      cases m.execute e.instruction with
      | ok m' => exact ih m'
      | error fault => rfl

end ContentMachine

theorem heightAfter?_statements (ss : List Stmt) (height : Nat) :
    heightAfter? (ss.flatMap Stmt.postorder) height = some height := by
  induction ss with
  | nil => rfl
  | cons s ss ih =>
    rw [List.flatMap_cons, heightAfter?_append, s.heightAfter?_postorder]
    exact ih

/-- Statements leave the stack as empty as they find it, unless one of them fails. -/
theorem ContentMachine.runAll_statements (ss : List Stmt) (capacity : Nat) :
    (∃ printed, runAll (ss.flatMap Stmt.postorder) ⟨capacity, [], []⟩ =
      (.halted, ⟨capacity, [], printed⟩)) ∨
    ∃ e m, runAll (ss.flatMap Stmt.postorder) ⟨capacity, [], []⟩ = (.failed e, m) := by
  have hinner : ∀ e ∈ ss.flatMap Stmt.postorder, e.instruction.Inner := by
    intro e he
    obtain ⟨s, -, he⟩ := List.mem_flatMap.mp he
    exact Stmt.postorder_inner he
  rcases runAll_height (m := ⟨capacity, [], []⟩) (fun e he => (hinner e he).1)
    (fun e he => (hinner e he).2) (heightAfter?_statements ss 0) with
    ⟨⟨capacity', stack, printed⟩, hm, hc, hl⟩ | ⟨e, m, hm, -⟩
  · obtain rfl := List.length_eq_zero_iff.mp hl
    cases hc
    exact .inl ⟨printed, hm⟩
  · exact .inr ⟨e, m, hm⟩

/-- Either the first of two programs comes to its end, and the second one runs as it does alone
after what has been printed, or the first one fails, and so do both. -/
theorem ContentMachine.runAll_joined (ss ss' : List Stmt) (last last' n capacity : Nat) :
    (∃ printed, runAll (programCode ss last) ⟨capacity, [], []⟩ =
        (.halted, ⟨capacity, [], printed⟩) ∧
      runAll (programCode (ss ++ ss'.map (Stmt.down n)) (last' + n)) ⟨capacity, [], []⟩ =
        ((runAll (programCode ss' last') ⟨capacity, [], []⟩).1.down n,
          (runAll (programCode ss' last') ⟨capacity, [], []⟩).2.after printed)) ∨
    ∃ e m, runAll (programCode ss last) ⟨capacity, [], []⟩ = (.failed e, m) ∧
      runAll (programCode (ss ++ ss'.map (Stmt.down n)) (last' + n)) ⟨capacity, [], []⟩ =
        (.failed e, m) := by
  have hhalt : ∀ e ∈ ss.flatMap Stmt.postorder, e.instruction ≠ .op .halt := by
    intro e he
    obtain ⟨s, -, he⟩ := List.mem_flatMap.mp he
    exact (Stmt.postorder_inner he).2
  rw [programCode_joined, programCode, runAll_append hhalt, runAll_append hhalt]
  rcases runAll_statements ss capacity with ⟨printed, hr⟩ | ⟨e, m, hr⟩
  · have hstart : (⟨capacity, [], printed⟩ : ContentMachine) =
        after printed ⟨capacity, [], []⟩ := by
      rw [after, List.append_nil]
    refine .inl ⟨printed, by rw [hr]; rfl, ?_⟩
    rw [hr, ← runAll_after, ← hstart]
  · exact .inr ⟨e, m, by rw [hr], by rw [hr]⟩

theorem Scan.line_finish {source : String} {s : Scan} (hs : scan source = .ok s) :
    s.finish.line = 1 + source.toList.count '\n' := by
  obtain ⟨fs, hfs, rfl⟩ := scan_eq_ok_iff.mp hs
  rw [Place.line_after, hfs.text, List.append_nil]
  rfl

namespace Machine

theorem interpret_of_ok {m : Machine} (hm : m.tornDown = false) {source : String} {c : Chunk}
    (hc : compile source = .ok c) : m.interpret source = m.interpretChunk c := by
  rw [interpret, if_neg (by rw [hm]; exact Bool.false_ne_true), hc]

/-- Interprets a text, and if it comes to its end another one, whose lines go on where the
first text ends. -/
def interpretInTurn (m : Machine) (p q : String) : Except Refusal Verdict × Machine :=
  match m.interpret p with
  | (.ok .ok, m) =>
    match m.interpret q with
    | (verdict, m) => (verdict.map (Verdict.down (p.toList.count '\n')), m)
  | stopped => stopped

theorem interpretInTurn_of_ok {m : Machine} {p : String} (h : (m.interpret p).1 = .ok .ok)
    (q : String) :
    (m.interpretInTurn p q).1 =
        ((m.interpret p).2.interpret q).1.map (Verdict.down (p.toList.count '\n')) ∧
      (m.interpretInTurn p q).2 = ((m.interpret p).2.interpret q).2 := by
  rw [interpretInTurn]
  rcases hr : m.interpret p with ⟨verdict, m'⟩
  rw [hr] at h
  obtain rfl : verdict = .ok .ok := h
  exact ⟨rfl, rfl⟩

theorem interpretInTurn_of_error {m : Machine} {p : String} {e : RuntimeError}
    (h : (m.interpret p).1 = .ok (.runtimeError e)) (q : String) :
    m.interpretInTurn p q = m.interpret p := by
  rw [interpretInTurn]
  rcases hr : m.interpret p with ⟨verdict, m'⟩
  rw [hr] at h
  obtain rfl : verdict = .ok (.runtimeError e) := h
  rfl

/-- The texts of the values on the stack, from bottom to top. -/
def stackTexts (m : Machine) : List String := m.stack.toList.map m.format

theorem Shows.stackTexts {m₀ m : Machine} {s : ContentMachine} (h : m₀.Shows m s) :
    m.stackTexts = s.stack.reverse.map Datum.toText :=
  map_format_of_content? h.stack_toList

theorem interpretChunk_live {m : Machine} (hm : m.tornDown = false) (c : Chunk) :
    (m.interpretChunk c).2.tornDown = false := by
  rw [interpretChunk_of_live hm]
  exact (m.cleared.later_runFrom _ _).tornDown.trans hm

theorem interpret_shows {m : Machine} (hm : m.tornDown = false) {source : String} {s : Scan}
    {c : Chunk} {ss : List Stmt} (hs : scan source = .ok s) (hp : parse s.tokens = ([], ss))
    (hc : compile source = .ok c) (hw : c.code.size < Word.size) :
    (m.interpret source).1 = (ContentMachine.runAll (programCode ss s.finish.line)
        ⟨m.stack.capacity, [], []⟩).1.verdict ∧
      m.Shows (m.interpret source).2 (ContentMachine.runAll (programCode ss s.finish.line)
        ⟨m.stack.capacity, [], []⟩).2 := by
  obtain ⟨-, -, -, -, -, ha, -⟩ := compile_spec hc
  have hhalt : ∃ e ∈ programCode ss s.finish.line, e.instruction = .op .halt :=
    ⟨⟨.op .halt, s.finish.line⟩, by simp [programCode], rfl⟩
  have hrun := ContentMachine.runFrom_of_decodes (Decodes.programCode_of_ok hs hp hc) hhalt ha hw
    m.settings.trace 0 ⟨m.stack.capacity, [], []⟩
  rw [← hrun, interpret_of_ok hm hc]
  exact interpretChunk_shows hm c

/-- A text that ends in a semicolon and another one come to the same whether they are
interpreted in turn or as one text. A chunk has no more bytes than a word counts. -/
theorem interpret_append (p q : String) (sp sq : Scan) (cp cq : Chunk) (m : Machine)
    (hp : scan p = .ok sp) (hq : scan q = .ok sq) (he : EndsInSemicolon p)
    (hl : distinctLiterals (sp.tokens ++ sq.tokens) ≤ 16777216)
    (hcp : compile p = .ok cp) (hcq : compile q = .ok cq)
    (hwp : cp.code.size < Word.size) (hwq : cq.code.size < Word.size)
    (hw : ∀ c, compile (p ++ q) = .ok c → c.code.size < Word.size)
    (hm : m.tornDown = false) :
    (m.interpret (p ++ q)).1 = (m.interpretInTurn p q).1 ∧
      (m.interpret (p ++ q)).2.output.toList = (m.interpretInTurn p q).2.output.toList ∧
      (m.interpret (p ++ q)).2.stackTexts = (m.interpretInTurn p q).2.stackTexts ∧
      ((m.interpret (p ++ q)).1 = .ok .ok ∨
        ∃ e, (m.interpret (p ++ q)).1 = .ok (.runtimeError e)) := by
  obtain ⟨ssp, hpp, -⟩ := (compile_eq_ok_iff hp).mp hcp
  obtain ⟨ssq, hpq, -⟩ := (compile_eq_ok_iff hq).mp hcq
  have hs := scan_append hp he hq
  obtain ⟨c, -, -, -, hc, -⟩ := compile_append_of_ok hp he hq hl hcp hcq
  have hn : sp.finish.line - 1 = p.toList.count '\n' := by
    rw [Scan.line_finish hp]
    omega
  obtain ⟨hwv, hws⟩ := interpret_shows hm hs (parse_joined hp he hpp hpq) hc (hw c hc)
  obtain ⟨hfv, hfs⟩ := interpret_shows hm hp hpp hcp hwp
  rw [show (sp.finish.shift sq.finish).line = sq.finish.line + (sp.finish.line - 1) from rfl]
    at hwv hws
  rcases ContentMachine.runAll_joined ssp ssq sp.finish.line sq.finish.line (sp.finish.line - 1)
    m.stack.capacity with ⟨printed, hr, hj⟩ | ⟨e, s, hr, hj⟩
  · rw [hj] at hwv hws
    rw [hr] at hfv hfs
    have hlive : (m.interpret p).2.tornDown = false := by
      rw [interpret_of_ok hm hcp]
      exact interpretChunk_live hm cp
    obtain ⟨hsv, hss⟩ := interpret_shows hlive hq hpq hcq hwq
    have hcap : (m.interpret p).2.stack.capacity = m.stack.capacity := hfs.capacity
    rw [hcap] at hsv hss
    obtain ⟨htv, htm⟩ := interpretInTurn_of_ok hfv q
    rw [htv, htm, hwv, hsv, Ending.verdict_down, hn]
    refine ⟨rfl, ?_, ?_, ?_⟩
    · rw [hws.output, hss.output, hfs.output, List.append_assoc]
      rfl
    · rw [hws.stackTexts, hss.stackTexts]
      rfl
    · rcases ContentMachine.runAll_ends (programCode ssq sq.finish.line)
        ⟨m.stack.capacity, [], []⟩ with h | ⟨e, h⟩
      · rw [h]
        exact .inl rfl
      · rw [h]
        exact .inr ⟨⟨e.line + p.toList.count '\n', e.fault⟩, rfl⟩
  · rw [hj] at hwv hws
    rw [hr] at hfv hfs
    rw [interpretInTurn_of_error hfv]
    refine ⟨hwv.trans hfv.symm, ?_, ?_, .inr ⟨e, hwv⟩⟩
    · rw [hws.output, hfs.output]
    · rw [hws.stackTexts, hfs.stackTexts]

/-- The fault is on the first line of the second text. -/
theorem interpret_append_fault : ∃ sp sq cp cq,
    scan "1\n;" = .ok sp ∧ scan "print -nil;" = .ok sq ∧ EndsInSemicolon "1\n;" ∧
    distinctLiterals (sp.tokens ++ sq.tokens) ≤ 16777216 ∧
    compile "1\n;" = .ok cp ∧ compile "print -nil;" = .ok cq ∧
    cp.code.size < Word.size ∧ cq.code.size < Word.size ∧
    (∀ c, compile ("1\n;" ++ "print -nil;") = .ok c → c.code.size < Word.size) ∧
    ((new ⟨4, false, false⟩).interpret ("1\n;" ++ "print -nil;")).1 =
      .ok (.runtimeError ⟨2, .notNumber .nil⟩) := by
  have hends : EndsInSemicolon "1\n;" :=
    ⟨[⟨Front.numeral ['1'] [], ['1'], ['\n', ';']⟩, ⟨.blank, ['\n'], [';']⟩],
      .piece (front_longest (show front '1' ['\n', ';'] = .ok _ from rfl))
        (.piece (front_longest (show front '\n' [';'] = .ok _ from rfl)) (.stop [';']))⟩
  have hp : ((scan "1\n;").toOption.map fun s => s.tokens.length) = some 2 := by decide +kernel
  have hq : ((scan "print -nil;").toOption.map fun s => s.tokens.length) = some 4 := by
    decide +kernel
  have hcp : ((compile "1\n;").toOption.map fun c => c.code.size) = some 4 := by decide +kernel
  have hcq : ((compile "print -nil;").toOption.map fun c => c.code.size) = some 4 := by
    decide +kernel
  have hwhole : ((compile ("1\n;" ++ "print -nil;")).toOption.map fun c => c.code.size) =
      some 7 := by decide +kernel
  have hturn : (((new ⟨4, false, false⟩).interpretInTurn "1\n;" "print -nil;").1.toOption.map
      fun v => match v with
        | .runtimeError e => some e
        | _ => none) = some (some ⟨2, .notNumber .nil⟩) := by decide +kernel
  obtain ⟨sp, hp, hlp⟩ := exists_ok_of_toOption hp
  obtain ⟨sq, hq, hlq⟩ := exists_ok_of_toOption hq
  obtain ⟨cp, hcp, hwp⟩ := exists_ok_of_toOption hcp
  obtain ⟨cq, hcq, hwq⟩ := exists_ok_of_toOption hcq
  obtain ⟨c, hc, hw⟩ := exists_ok_of_toOption hwhole
  obtain ⟨v, hv, he⟩ := exists_ok_of_toOption hturn
  have hl : distinctLiterals (sp.tokens ++ sq.tokens) ≤ 16777216 := by
    refine Nat.le_trans (distinctLiterals_le_length _) ?_
    rw [List.length_append, hlp, hlq]
    decide
  have hsmall : 7 < Word.size := by decide
  have hws (d : Chunk) (hd : compile ("1\n;" ++ "print -nil;") = .ok d) :
      d.code.size < Word.size := by
    cases hc.symm.trans hd
    omega
  obtain ⟨hverdict, -⟩ := interpret_append "1\n;" "print -nil;" sp sq cp cq
    (new ⟨4, false, false⟩) hp hq hends hl hcp hcq (by omega) (by omega) hws rfl
  refine ⟨sp, sq, cp, cq, hp, hq, hends, hl, hcp, hcq, by omega, by omega, hws, ?_⟩
  rw [hverdict, hv]
  cases v with
  | ok | compileErrors => cases he
  | runtimeError e =>
    cases he
    rfl

end Machine

end ExprMachine
