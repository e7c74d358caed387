import ExprMachine.Proofs.Compile.Heights
import ExprMachine.Proofs.Compile.Meaning

/-! How large a stack a program needs. A stack that is as large never overflows, and on a
smaller one the program cannot come to its end. -/

namespace ExprMachine

def programNeed (ss : List Stmt) : Nat :=
  (ss.map fun s => s.value.need).foldr max 0

theorem programNeed_cons (s : Stmt) (ss : List Stmt) :
    programNeed (s :: ss) = max s.value.need (programNeed ss) := rfl

theorem programNeed_le_iff {ss : List Stmt} {n : Nat} :
    programNeed ss ≤ n ↔ ∀ s ∈ ss, s.value.need ≤ n := by
  induction ss with
  | nil => simp [programNeed]
  | cons s ss ih => rw [programNeed_cons, Nat.max_le, List.forall_mem_cons, ih]

theorem Fault.ne_overflow {e : Fault} (h : ∀ capacity, e.OfValues capacity) (k : Nat) :
    e ≠ .stack (.overflow k) := by
  rintro rfl
  cases h (k + 1)

theorem fault_of_map {r : Except Fault Datum} {f : Datum → Datum} {e : Fault}
    (h : r.map f = .error e) : r = .error e := by
  cases r with
  | ok v => cases h
  | error fault =>
    cases h
    rfl

theorem fault_of_onLine {line : Nat} {r : Except Fault Datum} {e : RuntimeError}
    (h : onLine line r = .error e) : r = .error e.fault := by
  cases r with
  | ok v => cases h
  | error fault =>
    cases h
    rfl

theorem UnaryOp.fault_of_eval {op : UnaryOp} {a : Datum} {e : Fault} (capacity : Nat)
    (h : op.eval a = .error e) : e.OfValues capacity := by
  cases op with
  | not => cases h
  | negate => exact Datum.fault_of_negate capacity h

theorem BinaryOp.fault_of_eval {op : BinaryOp} {a b : Datum} {e : Fault} (capacity : Nat)
    (h : op.eval a b = .error e) : e.OfValues capacity := by
  cases op with
  | equal | notEqual => cases h
  | lessEqual | greaterEqual => exact Datum.fault_of_calculate capacity (fault_of_map h)
  | add => exact Datum.fault_of_add capacity h
  | less | greater | subtract | multiply | divide =>
    simp only [eval] at h
    exact Datum.fault_of_calculate capacity h

theorem Expr.fault_of_eval {e : Expr} {error : RuntimeError} (capacity : Nat)
    (h : e.eval = .error error) : error.fault.OfValues capacity := by
  induction e with
  | literal v line => cases h
  | group inner ih => exact ih h
  | unary op line operand ih =>
    rw [eval] at h
    cases ho : operand.eval with
    | error e =>
      rw [ho] at h
      cases h
      exact ih ho
    | ok a =>
      rw [ho] at h
      exact op.fault_of_eval capacity (fault_of_onLine h)
  | binary op line left right ihl ihr =>
    rw [eval] at h
    cases hl : left.eval with
    | error e =>
      rw [hl] at h
      cases h
      exact ihl hl
    | ok a =>
      cases hr : right.eval with
      | error e =>
        rw [hl, hr] at h
        cases h
        exact ihr hr
      | ok b =>
        rw [hl, hr] at h
        exact op.fault_of_eval capacity (fault_of_onLine h)

theorem fault_of_evalAll {ss : List Stmt} {error : RuntimeError} (capacity : Nat)
    (h : (evalAll ss).2 = some error) : error.fault.OfValues capacity := by
  induction ss with
  | nil => cases h
  | cons s ss ih =>
    rw [evalAll] at h
    cases hs : s.value.eval with
    | error e =>
      rw [hs] at h
      cases h
      exact s.value.fault_of_eval capacity hs
    | ok v =>
      rw [hs] at h
      exact ih h

namespace ContentMachine

/-- The instructions are not carried out to their end. Either the stack is full at one of
them, or there is an error that is not due to its size. -/
def Fails (m : ContentMachine) (es : List Emission) (error? : RuntimeError → Prop) : Prop :=
  ∃ e m', runAll es m = (.failed e, m') ∧
    (e.fault = .stack (.overflow m.capacity) ∨ error? e)

theorem Fails.mono {m : ContentMachine} {es : List Emission} {p q : RuntimeError → Prop}
    (h : m.Fails es p) (hpq : ∀ e, p e → q e) : m.Fails es q := by
  obtain ⟨e, m', hrun, he⟩ := h
  exact ⟨e, m', hrun, he.imp_right (hpq e)⟩

theorem fails_push {m : ContentMachine} {i : Instruction} {v : Datum} (line : Nat)
    (rest : List Emission) (error? : RuntimeError → Prop) (hh : i ≠ .op .halt)
    (hx : m.execute i = m.push v) (h : ¬ m.stack.length < m.capacity) :
    m.Fails (⟨i, line⟩ :: rest) error? := by
  rw [Fails, runAll_cons hh, hx, push, if_neg h]
  exact ⟨_, _, rfl, .inl rfl⟩

end ContentMachine

open ContentMachine in
theorem Expr.fails {e : Expr} {m : ContentMachine} (h : m.capacity < m.stack.length + e.need)
    (rest : List Emission) :
    m.Fails (e.postorder ++ rest) fun error => e.eval = .error error := by
  induction e generalizing m rest with
  | literal v line =>
    have hfull : ¬ m.stack.length < m.capacity := Nat.not_lt.mpr (Nat.le_of_lt_succ h)
    cases v with
    | boolean b => cases b <;> exact fails_push line rest _ nofun rfl hfull
    | nil | number | text => exact fails_push line rest _ nofun rfl hfull
  | group inner ih => exact ih h rest
  | unary op line operand ih =>
    rw [postorder_unary, List.append_assoc]
    refine (ih h ([⟨.op op.opcode, line⟩] ++ rest)).mono fun e he => ?_
    simp only [eval, he]
  | binary op line left right ihl ihr =>
    rw [postorder, List.append_assoc, List.append_assoc]
    by_cases hleft : m.stack.length + left.need ≤ m.capacity
    · have hc := left.continues m (right.postorder ++ (op.code line ++ rest)) hleft
      cases hl : left.eval with
      | error e =>
        rw [hl] at hc
        obtain ⟨stack, hrun⟩ := hc
        exact ⟨e, _, hrun, .inr (by simp only [eval, hl])⟩
      | ok a =>
        rw [hl] at hc
        -- the value of the left operand stays while the right one is evaluated
        have hright : m.capacity < (a :: m.stack).length + right.need := by
          simp only [need] at h
          simp only [List.length_cons]
          omega
        rw [Fails, hc]
        refine (ihr (m := { m with stack := a :: m.stack }) hright _).mono fun e he => ?_
        simp only [eval, hl, he]
    · refine (ihl (Nat.lt_of_not_le hleft) _).mono fun e he => ?_
      simp only [eval, he]

namespace ContentMachine

theorem fails_programCode {ss : List Stmt} {capacity : Nat} (h : capacity < programNeed ss)
    (last : Nat) (output : List String) :
    Fails ⟨capacity, [], output⟩ (programCode ss last) fun error =>
      (evalAll ss).2 = some error := by
  induction ss generalizing output with
  | nil => exact absurd h (Nat.not_lt_zero _)
  | cons s ss ih =>
    rw [programCode_cons]
    by_cases hs : s.value.need ≤ capacity
    · have hrun := runAll_stmt hs (programCode ss last) output
      have hss : capacity < programNeed ss := by
        rw [programNeed_cons] at h
        omega
      cases he : s.value.eval with
      | error e =>
        rw [he] at hrun
        obtain ⟨stack, hrun⟩ := hrun
        exact ⟨e, _, hrun, .inr (by simp only [evalAll, he])⟩
      | ok v =>
        rw [he] at hrun
        rw [Fails, hrun]
        refine (ih hss _).mono fun e hx => ?_
        simp only [evalAll, he, hx]
    · rw [Stmt.postorder, List.append_assoc]
      have hfull : capacity < ([] : List Datum).length + s.value.need := by
        rw [List.length_nil, Nat.zero_add]
        exact Nat.lt_of_not_le hs
      refine (s.value.fails (m := ⟨capacity, [], output⟩) hfull _).mono fun e hx => ?_
      simp only [evalAll, hx]

end ContentMachine

/-- How the run of a chunk ends, seen from the run of its instructions. Where the lines of the
chunk cannot be counted, it is refused. -/
inductive Ending.Follows : Ending → Ending → Prop
  | halted : Follows .halted .halted
  | failed (line line' : Nat) (fault : Fault) :
    Follows (.failed ⟨line, fault⟩) (.failed ⟨line', fault⟩)
  | refused (e : Refusal) (ending : Ending) : Follows (.refused e) ending

theorem Ending.follows_ofFault (f : Frame) (line : Nat) (fault : Fault) :
    (ofFault f fault).Follows (.failed ⟨line, fault⟩) := by
  rw [ofFault]
  cases f.line with
  | ok line' => exact .failed line' line fault
  | error e => exact .refused e _

/-- This asks nothing of the lines of the chunk, and nothing of its size. -/
theorem ContentMachine.runFrom_follows {c : Chunk} {offset : Nat} {es : List Emission}
    (h : Decodes c offset es) (hhalt : ∃ e ∈ es, e.instruction = .op .halt) (trace : Bool)
    (start : Nat) (m : ContentMachine) :
    (runFrom trace ⟨c, offset, start⟩ m).1.Follows (runAll es m).1 := by
  induction h generalizing start m with
  | done => simp at hhalt
  | @next offset after line i rest hi _ _ _ ih =>
    rw [runFrom_eq, Frame.beginOp]
    cases listed trace ⟨c, offset, offset⟩ with
    | error e => exact .refused e _
    | ok =>
      simp only [hi]
      by_cases hh : i = .op .halt
      · rw [if_pos hh, runAll, if_pos hh]
        exact .halted
      · rw [if_neg hh, runAll_cons hh]
        cases m.execute i with
        | error fault => exact Ending.follows_ofFault _ line fault
        | ok m => exact ih (exists_halt_rest hhalt hh) offset m

theorem Ending.Follows.fault {a b : Ending} (h : a.Follows b) {e : RuntimeError}
    (hv : a.verdict = .ok (.runtimeError e)) : ∃ line, b = .failed ⟨line, e.fault⟩ := by
  cases h with
  | halted | refused => cases hv
  | failed line line' fault =>
    cases hv
    exact ⟨line', rfl⟩

theorem Ending.Follows.halted_of_ok {a b : Ending} (h : a.Follows b) (hv : a.verdict = .ok .ok) :
    b = .halted := by
  cases h with
  | halted => rfl
  | failed | refused => cases hv

def Machine.Overflows (m : Machine) (source : String) : Prop :=
  ∃ e k, (m.interpret source).1 = .ok (.runtimeError e) ∧ e.fault = .stack (.overflow k)

/-- A stack of as many values as a program needs is large enough for it, and no smaller one
is: there the machine stops at an overflow, or before it at the error that the program ends
with. No program that compiles needs more than 512 values. -/
theorem interpret_need (source : String) (c : Chunk) (h : compile source = .ok c) (m : Machine)
    (hm : m.tornDown = false) :
    ∃ tokens ss, scan source = .ok tokens ∧ DerivesProgram tokens.tokens ss ∧
      (∀ ss', DerivesProgram tokens.tokens ss' → ss' = ss) ∧
      (programNeed ss ≤ m.stack.capacity → ¬ m.Overflows source) ∧
      (m.stack.capacity < programNeed ss → (m.interpret source).1 ≠ .ok .ok ∧
        (c.code.size < Word.size → ∃ e, (m.interpret source).1 = .ok (.runtimeError e) ∧
          (e.fault = .stack (.overflow m.stack.capacity) ∨ (evalAll ss).2 = some e))) ∧
      programNeed ss ≤ 512 ∧ (512 ≤ m.stack.capacity → ¬ m.Overflows source) := by
  obtain ⟨tokens, ss, hs, hd, hn, ha, hdec⟩ := compile_spec h
  have hhalt : ∃ e ∈ programCode ss tokens.finish.line, e.instruction = .op .halt :=
    ⟨⟨.op .halt, tokens.finish.line⟩, by simp [programCode], rfl⟩
  have hfollows := ContentMachine.runFrom_follows hdec hhalt m.settings.trace 0
    ⟨m.stack.capacity, [], []⟩
  obtain ⟨hv, -⟩ := Machine.interpretChunk_shows hm c
  have hint : m.interpret source = m.interpretChunk c := by
    rw [Machine.interpret, if_neg (by rw [hm]; exact Bool.false_ne_true), h]
  rw [← hint, ContentMachine.run, Frame.ofChunk] at hv
  have hroom : programNeed ss ≤ m.stack.capacity → ¬ m.Overflows source := by
    rintro hneed ⟨e, k, he, hk⟩
    obtain ⟨left, hrun⟩ := ContentMachine.runAll_programCode (programNeed_le_iff.mp hneed)
      tokens.finish.line []
    obtain ⟨line, hl⟩ := hfollows.fault (hv.symm.trans he)
    rw [hrun] at hl
    cases hx : (evalAll ss).2 with
    | none =>
      rw [hx] at hl
      cases hl
    | some error =>
      rw [hx] at hl
      cases hl
      exact Fault.ne_overflow (fun capacity => fault_of_evalAll capacity hx) k hk
  have hmost : programNeed ss ≤ 512 := programNeed_le_iff.mpr fun s hs =>
    Nat.le_trans s.value.need_le_nesting (hn s hs)
  refine ⟨tokens, ss, hs, hd, fun ss' hd' => hd'.unique hd, hroom, ?_, hmost,
    fun hcap => hroom (Nat.le_trans hmost hcap)⟩
  intro hneed
  obtain ⟨e, m', hrun, he⟩ := ContentMachine.fails_programCode hneed tokens.finish.line []
  constructor
  · intro hok
    have hhalted := hfollows.halted_of_ok (hv.symm.trans hok)
    rw [hrun] at hhalted
    cases hhalted
  · intro hw
    rw [ContentMachine.runFrom_of_decodes hdec hhalt ha hw, hrun] at hv
    exact ⟨e, hv, he⟩

theorem interpret_need_grouped : ∃ c ss, compile "print 1 + (2 + 3);" = .ok c ∧
    programNeed ss = 3 ∧ ∃ e,
      ((Machine.new ⟨2, false, false⟩).interpret "print 1 + (2 + 3);").1 =
        .ok (.runtimeError e) ∧ e.fault = .stack (.overflow 2) := by
  have hcompile : ((compile "print 1 + (2 + 3);").toOption.map
      fun c => decide (c.code.size < Word.size)) = some true := by decide +kernel
  have hparse : ((scan "print 1 + (2 + 3);").toOption.map fun tokens =>
      (programNeed (parse tokens.tokens).2, (evalAll (parse tokens.tokens).2).2)) =
        some (3, none) := by decide +kernel
  obtain ⟨c, hc, hw⟩ := exists_ok_of_toOption hcompile
  obtain ⟨tokens, hs, he⟩ := exists_ok_of_toOption hparse
  obtain ⟨tokens', ss, hs', -, huniq, -, hsmall, -⟩ := interpret_need _ c hc
    (Machine.new ⟨2, false, false⟩) rfl
  cases hs.symm.trans hs'
  obtain ⟨ss', hp, -⟩ := (compile_eq_ok_iff hs).mp hc
  obtain rfl := huniq ss' (parse_eq_iff.mp hp).1
  rw [hp] at he
  obtain ⟨hneed, hnone⟩ := Prod.mk.inj he
  have hcap : (Machine.new ⟨2, false, false⟩).stack.capacity < programNeed ss' := by
    rw [hneed]
    exact Nat.lt_succ_self 2
  obtain ⟨e, hv, hf⟩ := (hsmall hcap).2 (of_decide_eq_true hw)
  refine ⟨c, ss', hc, hneed, e, hv, hf.resolve_right fun hsome => ?_⟩
  rw [hnone] at hsome
  cases hsome

end ExprMachine
