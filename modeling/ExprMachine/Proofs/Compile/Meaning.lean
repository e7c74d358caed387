import Mathlib
import ExprMachine.Proofs.Compile.Acceptance
import ExprMachine.Proofs.Content.Emitted
import ExprMachine.Proofs.Content.Simulation

/-! What programs mean, read off their trees, and that this is what a machine makes of them. -/

namespace ExprMachine

def Literal.datum : Literal → Datum
  | nil => .nil
  | boolean b => .boolean b
  | number x => .number x
  | text s => .text s

def UnaryOp.eval : UnaryOp → Datum → Except Fault Datum
  | negate, a => a.negate
  | not, a => .ok (.boolean a.isFalsey)

def BinaryOp.eval (op : BinaryOp) (a b : Datum) : Except Fault Datum :=
  match op with
  | equal => .ok (.boolean (a.equal b))
  | notEqual => .ok (.boolean !a.equal b)
  | less => Datum.calculate .less a b
  | lessEqual => (Datum.calculate .greater a b).map fun v => .boolean v.isFalsey
  | greater => Datum.calculate .greater a b
  | greaterEqual => (Datum.calculate .less a b).map fun v => .boolean v.isFalsey
  | add => a.add b
  | subtract => Datum.calculate .subtract a b
  | multiply => Datum.calculate .multiply a b
  | divide => Datum.calculate .divide a b

def onLine (line : Nat) : Except Fault Datum → Except RuntimeError Datum
  | .ok v => .ok v
  | .error fault => .error ⟨line, fault⟩

/-- The value of an expression. The left operand comes first. -/
def Expr.eval : Expr → Except RuntimeError Datum
  | literal v _ => .ok v.datum
  | group inner => inner.eval
  | unary op line operand =>
    match operand.eval with
    | .ok a => onLine line (op.eval a)
    | .error e => .error e
  | binary op line left right =>
    match left.eval with
    | .error e => .error e
    | .ok a =>
      match right.eval with
      | .error e => .error e
      | .ok b => onLine line (op.eval a b)

/-- What statements print up to the first error, and that error. -/
def evalAll : List Stmt → List String × Option RuntimeError
  | [] => ([], none)
  | s :: rest =>
    match s.value.eval with
    | .error e => ([], some e)
    | .ok v =>
      let (printed, error) := evalAll rest
      (if s.printed then v.toText :: printed else printed, error)

namespace ContentMachine

/-- A run that goes on with a value on top of the stack, or that an error has ended. -/
def Continues (m : ContentMachine) (stack : List Datum) (rest : List Emission)
    (ending : Ending × ContentMachine) : Except RuntimeError Datum → Prop
  | .ok v => ending = runAll rest { m with stack := v :: stack }
  | .error e => ∃ left, ending = (.failed e, { m with stack := left })

variable (m : ContentMachine) (stack : List Datum) (rest : List Emission) (line : Nat)

theorem continues_unary (op : UnaryOp) (a : Datum) :
    m.Continues stack rest
      (runAll (⟨.op op.opcode, line⟩ :: rest) { m with stack := a :: stack })
      (onLine line (op.eval a)) := by
  cases op with
  | not => rfl
  | negate =>
    rw [runAll_cons (by simp [UnaryOp.opcode])]
    simp only [UnaryOp.opcode, UnaryOp.eval, execute, unary, withTop]
    cases a.negate with
    | ok r => rfl
    | error fault => exact ⟨_, rfl⟩

theorem continues_of_binary {code : Opcode} {f : Datum → Datum → Except Fault Datum}
    (hh : code ≠ .halt) (hx : ∀ m, execute m (.op code) = m.binary f) (a b : Datum) :
    m.Continues stack rest
      (runAll (⟨.op code, line⟩ :: rest) { m with stack := b :: a :: stack })
      (onLine line (f a b)) := by
  rw [runAll_cons (by simp [hh]), hx]
  simp only [binary]
  cases f a b with
  | ok r => rfl
  | error fault => exact ⟨_, rfl⟩

/-- The machine compares the other way round and negates what it finds. -/
theorem continues_of_negated {code : Opcode} {f : Datum → Datum → Except Fault Datum}
    (hh : code ≠ .halt) (hx : ∀ m, execute m (.op code) = m.binary f) (a b : Datum) :
    m.Continues stack rest
      (runAll (⟨.op code, line⟩ :: ⟨.op .not, line⟩ :: rest) { m with stack := b :: a :: stack })
      (onLine line ((f a b).map fun v => .boolean v.isFalsey)) := by
  have h := continues_of_binary m stack (⟨.op .not, line⟩ :: rest) line hh hx a b
  cases hf : f a b with
  | ok r =>
    rw [hf] at h
    exact h
  | error fault =>
    rw [hf] at h
    exact h

theorem continues_binary (op : BinaryOp) (a b : Datum) :
    m.Continues stack rest
      (runAll (op.code line ++ rest) { m with stack := b :: a :: stack })
      (onLine line (op.eval a b)) := by
  cases op with
  | notEqual =>
    refine continues_of_negated m stack rest line (f := fun a b => .ok (.boolean (a.equal b)))
      ?_ ?_ a b
    · decide
    · exact fun _ => rfl
  | lessEqual | greaterEqual =>
    refine continues_of_negated m stack rest line ?_ ?_ a b
    · decide
    · exact fun _ => rfl
  | _ =>
    refine continues_of_binary m stack rest line ?_ ?_ a b
    · decide
    · exact fun _ => rfl

theorem continues_push {i : Instruction} {v : Datum} (hh : i ≠ .op .halt)
    (hx : m.execute i = m.push v) (h : m.stack.length < m.capacity) :
    m.Continues m.stack rest (runAll (⟨i, line⟩ :: rest) m) (.ok v) := by
  rw [runAll_cons hh, hx, push, if_pos h]
  rfl

end ContentMachine

open ContentMachine in
/-- The code of an expression puts its value on the stack, if that has room for all the values
that the expression needs at once. -/
theorem Expr.continues (e : Expr) (m : ContentMachine) (rest : List Emission)
    (h : m.stack.length + e.need ≤ m.capacity) :
    m.Continues m.stack rest (runAll (e.postorder ++ rest) m) e.eval := by
  induction e generalizing m rest with
  | literal v line =>
    have hlt : m.stack.length < m.capacity := h
    cases v with
    | boolean b => cases b <;> exact continues_push m rest line nofun rfl hlt
    | nil | text => exact continues_push m rest line nofun rfl hlt
    | number x =>
      have hload : m.execute (.load (.number x.toBits)) = m.push (.number x) := by
        rw [execute, Float.ofBits_toBits]
      exact continues_push m rest line nofun hload hlt
  | group inner ih => exact ih m rest h
  | unary op line operand ih =>
    have hi := ih m (⟨.op op.opcode, line⟩ :: rest) h
    rw [postorder_unary, List.append_assoc, List.singleton_append, eval]
    cases ho : operand.eval with
    | ok a =>
      rw [ho] at hi
      rw [hi]
      exact continues_unary m m.stack rest line op a
    | error e =>
      rw [ho] at hi
      exact hi
  | binary op line left right ihl ihr =>
    simp only [need] at h
    have hl := ihl m (right.postorder ++ (op.code line ++ rest)) (by omega)
    rw [postorder, List.append_assoc, List.append_assoc, eval]
    cases hle : left.eval with
    | error e =>
      rw [hle] at hl
      exact hl
    | ok a =>
      rw [hle] at hl
      have hr := ihr { m with stack := a :: m.stack } (op.code line ++ rest)
        (by simp only [List.length_cons]; omega)
      rw [hl]
      cases hre : right.eval with
      | error e =>
        rw [hre] at hr
        exact hr
      | ok b =>
        rw [hre] at hr
        rw [hr]
        exact continues_binary m m.stack rest line op a b

namespace ContentMachine

/-- Between two statements the stack is empty. -/
theorem runAll_stmt {s : Stmt} {capacity : Nat} (h : s.value.need ≤ capacity)
    (rest : List Emission) (output : List String) :
    match s.value.eval with
    | .ok v => runAll (s.postorder ++ rest) ⟨capacity, [], output⟩ =
        runAll rest ⟨capacity, [], if s.printed then output ++ [v.toText] else output⟩
    | .error e => ∃ left,
        runAll (s.postorder ++ rest) ⟨capacity, [], output⟩ = (.failed e, ⟨capacity, left, output⟩)
    := by
  have hc := s.value.continues ⟨capacity, [], output⟩
    (⟨.op (if s.printed then .print else .pop), s.line⟩ :: rest) (by rwa [List.length_nil, Nat.zero_add])
  rw [Stmt.postorder, List.append_assoc, List.singleton_append]
  cases he : s.value.eval with
  | error e =>
    rw [he] at hc
    exact hc
  | ok v =>
    rw [he] at hc
    simp only
    rw [hc]
    cases s.printed <;> rfl

theorem runAll_programCode {ss : List Stmt} {capacity : Nat}
    (h : ∀ s ∈ ss, s.value.need ≤ capacity) (last : Nat) (output : List String) :
    ∃ left, runAll (programCode ss last) ⟨capacity, [], output⟩ =
      match (evalAll ss).2 with
      | none => (.halted, ⟨capacity, [], output ++ (evalAll ss).1⟩)
      | some e => (.failed e, ⟨capacity, left, output ++ (evalAll ss).1⟩) := by
  induction ss generalizing output with
  | nil =>
    simp only [evalAll, List.append_nil]
    exact ⟨[], rfl⟩
  | cons s ss ih =>
    have hs := runAll_stmt (h s (by simp)) (programCode ss last) output
    rw [programCode_cons, evalAll]
    cases he : s.value.eval with
    | error e =>
      rw [he] at hs
      obtain ⟨left, hs⟩ := hs
      simp only [List.append_nil]
      exact ⟨left, hs⟩
    | ok v =>
      rw [he] at hs
      obtain ⟨left, hr⟩ := ih (fun s hs => h s (by simp [hs]))
        (if s.printed then output ++ [v.toText] else output)
      refine ⟨left, ?_⟩
      rw [hs, hr]
      rcases evalAll ss with ⟨printed, _ | e⟩ <;> cases s.printed <;> simp

end ContentMachine

/-- A program that compiles is interpreted as its tree is evaluated, on every machine whose
stack holds 512 values: the same texts are printed, and there is the same error or none. A
chunk has no more bytes than a word counts. -/
theorem interpret_eq_eval (source : String) (c : Chunk) (h : compile source = .ok c)
    (hw : c.code.size < Word.size) (m : Machine) (hm : m.tornDown = false)
    (hcap : 512 ≤ m.stack.capacity) :
    ∃ tokens ss, scan source = .ok tokens ∧ DerivesProgram tokens.tokens ss ∧
      (∀ ss', DerivesProgram tokens.tokens ss' → ss' = ss) ∧
      (m.interpret source).2.output.toList = m.output.toList ++ (evalAll ss).1 ∧
      match (evalAll ss).2 with
      | none => (m.interpret source).1 = .ok .ok ∧ (m.interpret source).2.stack.toList = []
      | some e => (m.interpret source).1 = .ok (.runtimeError e) := by
  obtain ⟨tokens, ss, hs, hd, hn, ha, hdec⟩ := compile_spec h
  have hneed : ∀ s ∈ ss, s.value.need ≤ m.stack.capacity := by
    intro s hs
    have hle : s.value.nesting ≤ 512 := hn s hs
    have hnn := s.value.need_le_nesting
    omega
  obtain ⟨left, hrun⟩ := ContentMachine.runAll_programCode hneed tokens.finish.line []
  have hfrom := ContentMachine.runFrom_of_decodes hdec
    ⟨⟨.op .halt, tokens.finish.line⟩, by simp [programCode], rfl⟩ ha hw m.settings.trace 0
    ⟨m.stack.capacity, [], []⟩
  have hint : m.interpret source = m.interpretChunk c := by
    rw [Machine.interpret, if_neg (by rw [hm]; exact Bool.false_ne_true), h]
  obtain ⟨hv, hsh⟩ := Machine.interpretChunk_shows hm c
  have ho := hsh.output
  have hst := hsh.stack_toList
  rw [ContentMachine.run, Frame.ofChunk, hfrom, hrun] at hv ho hst
  rw [hint]
  refine ⟨tokens, ss, hs, hd, fun ss' hd' => hd'.unique hd, ?_⟩
  rcases he : evalAll ss with ⟨printed, _ | e⟩ <;> rw [he] at hv ho hst
  · exact ⟨ho, hv, List.map_eq_nil_iff.mp hst⟩
  · exact ⟨ho, hv⟩

theorem interpret_eq_eval_comparison : ∃ c,
    compile "print \"a\" + \"b\" == \"ab\";\nprint 1 <= nil;" = .ok c ∧
    c.code.size < Word.size ∧ ∃ v m,
      (Machine.new ⟨512, false, false⟩).interpret
        "print \"a\" + \"b\" == \"ab\";\nprint 1 <= nil;" = (v, m) ∧
      v = .ok (.runtimeError ⟨2, .notNumbers .greater .number .nil⟩) ∧
      m.output.toList = ["true"] := by
  have hcompile : ((compile "print \"a\" + \"b\" == \"ab\";\nprint 1 <= nil;").toOption.map
      fun c => decide (c.code.size < Word.size)) = some true := by decide +kernel
  have heval : ((scan "print \"a\" + \"b\" == \"ab\";\nprint 1 <= nil;").toOption.map
      fun tokens => evalAll (parse tokens.tokens).2) =
        some (["true"], some ⟨2, .notNumbers .greater .number .nil⟩) := by decide +kernel
  obtain ⟨c, hc, hw⟩ := exists_ok_of_toOption hcompile
  obtain ⟨tokens, hs, he⟩ := exists_ok_of_toOption heval
  obtain ⟨tokens', ss, hs', -, huniq, ho, hv⟩ := interpret_eq_eval _ c hc (of_decide_eq_true hw)
    (Machine.new ⟨512, false, false⟩) rfl (Nat.le_refl _)
  cases hs.symm.trans hs'
  obtain ⟨ss', hp, -⟩ := (compile_eq_ok_iff hs).mp hc
  obtain rfl := huniq ss' (parse_eq_iff.mp hp).1
  rw [hp] at he
  rw [he] at ho hv
  exact ⟨c, hc, of_decide_eq_true hw, _, _, rfl, hv, ho⟩

end ExprMachine
