import ExprMachine.Proofs.Machine.Dispatches
import ExprMachine.Proofs.Machine.Endurance

/-! Machines that differ in the capacity of their stacks only. Their runs do not part before the
smaller stack overflows. -/

namespace ExprMachine

namespace Machine

/-- The machine `n` is as `m` is, with a stack of at least the same capacity. The slots that are
not live do not count. -/
structure Widened (m n : Machine) : Prop where
  capacity : m.stack.capacity ≤ n.stack.capacity
  stack : n.stack.toList = m.stack.toList
  heap : n.heap = m.heap
  output : n.output = m.output
  console : n.console = m.console
  trace : n.trace = m.trace
  traced : n.settings.trace = m.settings.trace
  echoed : n.settings.echo = m.settings.echo
  tornDown : n.tornDown = m.tornDown

def WidenedResult : Except Fault Machine → Except Fault Machine → Prop
  | .ok m, .ok n => m.Widened n
  | .error e, .error e' => e' = e
  | _, _ => False

namespace Widened

variable {m n : Machine}

theorem values (h : m.Widened n) : n.values = m.values :=
  congrArg List.reverse h.stack

theorem top (h : m.Widened n) : n.stack.top = m.stack.top := by
  rw [← Stack.length_toList, ← Stack.length_toList, h.stack]

theorem peek (h : m.Widened n) (distance : Nat) : n.peek distance = m.peek distance := by
  simp only [Machine.peek, Stack.peek?_eq, h.stack, h.top]

theorem ensureDepth (h : m.Widened n) (needed : Nat) :
    n.ensureDepth needed = m.ensureDepth needed := by
  simp only [Machine.ensureDepth, Stack.ensureDepth, h.top]

theorem operands (h : m.Widened n) : n.operands = m.operands := by
  simp only [Machine.operands, h.ensureDepth, h.peek]

theorem format (h : m.Widened n) : n.format = m.format := by
  funext v
  rw [Machine.format, Machine.format, h.heap]

theorem setStack (h : m.Widened n) {s t : Stack} (hc : s.capacity ≤ t.capacity)
    (hl : t.toList.reverse = s.toList.reverse) {heap heap' : Heap} (hh : heap' = heap) :
    Widened { m with stack := s, heap := heap } { n with stack := t, heap := heap' } :=
  { h with capacity := hc, stack := List.reverse_injective hl, heap := hh }

/-- Values that are taken make room on both stacks. -/
theorem replace (h : m.Widened n) {k : Nat} (hk : 0 < k) (hle : k ≤ m.values.length) (v : Value)
    {heap heap' : Heap} (hh : heap' = heap) :
    WidenedResult (Machine.replace { m with heap := heap } k v)
      (Machine.replace { n with heap := heap' } k v) := by
  have hle' : k ≤ n.values.length := by rwa [h.values]
  obtain ⟨s, hs, hsc, hsv⟩ := replace_of_le (m := { m with heap := heap }) hk hle v
  obtain ⟨t, ht, htc, htv⟩ := replace_of_le (m := { n with heap := heap' }) hk hle' v
  have hc : s.capacity ≤ t.capacity := by
    rw [hsc, htc]
    exact h.capacity
  have hl : t.toList.reverse = s.toList.reverse := by
    rw [hsv, htv]
    exact congrArg (fun vs => v :: vs.drop k) h.values
  rw [hs, ht]
  exact h.setStack hc hl hh

theorem push (h : m.Widened n) (v : Value) :
    m.push v = .error (.stack (.overflow m.stack.capacity)) ∨
      WidenedResult (m.push v) (n.push v) := by
  by_cases hlt : m.values.length < m.stack.capacity
  · have hlt' : n.values.length < n.stack.capacity := by
      rw [h.values]
      exact Nat.lt_of_lt_of_le hlt h.capacity
    obtain ⟨s, hs, hsc, hsv⟩ := push_of_lt hlt v
    obtain ⟨t, ht, htc, htv⟩ := push_of_lt hlt' v
    have hc : s.capacity ≤ t.capacity := by
      rw [hsc, htc]
      exact h.capacity
    have hl : t.toList.reverse = s.toList.reverse := by rw [hsv, htv, h.values]
    rw [hs, ht]
    exact .inr (h.setStack hc hl h.heap)
  · exact .inl (push_of_full hlt v)

theorem bind_operands (h : m.Widened n) {g g' : Value × Value → Except Fault Machine}
    (hg : 2 ≤ m.values.length → ∀ v w, WidenedResult (g (v, w)) (g' (v, w))) :
    WidenedResult (m.operands >>= g) (n.operands >>= g') := by
  rw [h.operands]
  cases ho : m.operands with
  | error e => rfl
  | ok p => exact hg (le_of_operands ho) p.1 p.2

theorem bind_peek (h : m.Widened n) {g g' : Value → Except Fault Machine}
    (hg : 1 ≤ m.values.length → ∀ v, WidenedResult (g v) (g' v)) :
    WidenedResult (m.peek 0 >>= g) (n.peek 0 >>= g') := by
  rw [h.peek]
  cases hp : m.peek 0 with
  | error e => rfl
  | ok v => exact hg (lt_of_peek hp) v

theorem bind_ensureDepth (h : m.Widened n) {g g' : Unit → Except Fault Machine}
    (hg : WidenedResult (g ()) (g' ())) :
    WidenedResult (m.ensureDepth 1 >>= g) (n.ensureDepth 1 >>= g') := by
  rw [h.ensureDepth]
  cases m.ensureDepth 1 with
  | error e => rfl
  | ok _ => exact hg

theorem numeric (h : m.Widened n) (op : NumericOp) :
    WidenedResult (m.numeric op) (n.numeric op) := by
  refine h.bind_operands fun hle v w => ?_
  cases v <;> cases w <;> try rfl
  next x y =>
    by_cases hz : op = .divide ∧ (y == 0) = true
    · simp only [hz, and_self, if_true]
      rfl
    · simp only [hz, if_false]
      exact h.replace (by decide) hle _ h.heap

theorem concatenate (h : m.Widened n) : WidenedResult m.concatenate n.concatenate := by
  refine h.bind_operands fun hle v w => ?_
  cases v <;> cases w <;> try rfl
  next i j =>
    simp only [h.heap]
    cases hi : m.heap.get? i with
    | none => rfl
    | some s =>
      cases hj : m.heap.get? j with
      | none => rfl
      | some t => exact h.replace (by decide) hle _ rfl

theorem add (h : m.Widened n) : WidenedResult m.add n.add := by
  refine h.bind_operands fun hle v w => ?_
  cases v <;> cases w <;> try rfl
  · exact h.numeric .add
  · exact h.concatenate

theorem equal (h : m.Widened n) : WidenedResult m.equal n.equal :=
  h.bind_operands fun hle _ _ => h.replace (by decide) hle _ h.heap

theorem negate (h : m.Widened n) : WidenedResult m.negate n.negate := by
  refine h.bind_peek fun hle v => ?_
  cases v with
  | number x => exact h.replace (by decide) hle _ h.heap
  | _ => rfl

theorem not (h : m.Widened n) : WidenedResult m.not n.not :=
  h.bind_peek fun hle _ => h.replace (by decide) hle _ h.heap

theorem drop_one (h : m.Widened n) :
    Widened { m with stack := m.stack.drop 1 } { n with stack := n.stack.drop 1 } := by
  have hc : (m.stack.drop 1).capacity ≤ (n.stack.drop 1).capacity := h.capacity
  have hl : (n.stack.drop 1).toList.reverse = (m.stack.drop 1).toList.reverse := by
    rw [values_drop, values_drop, h.values]
  exact h.setStack hc hl h.heap

theorem discard (h : m.Widened n) : WidenedResult m.discard n.discard :=
  h.bind_ensureDepth h.drop_one

theorem print (h : m.Widened n) (v : Value) : (m.print v).Widened (n.print v) := by
  refine { h with output := ?_, console := ?_ }
  · simp only [Machine.print, h.format, h.output]
  · simp only [Machine.print, h.format, h.console, h.echoed]

theorem printTop (h : m.Widened n) : WidenedResult m.printTop n.printTop :=
  h.bind_ensureDepth (h.bind_peek fun _ v => h.drop_one.print v)

end Widened

/-- The two steps are the same, and the second one leaves the wider machine. -/
inductive WidenedStep : Step → Step → Prop
  | next {m n : Machine} (f : Frame) : m.Widened n → WidenedStep (.next f m) (.next f n)
  | halted {m n : Machine} : m.Widened n → WidenedStep (.halted m) (.halted n)
  | failed {m n : Machine} (e : Fault) : m.Widened n → WidenedStep (.failed e m) (.failed e n)

namespace Widened

variable {m n : Machine}

theorem ofResult (h : m.Widened n) (f : Frame) {r s : Except Fault Machine}
    (hr : WidenedResult r s) : WidenedStep (.ofResult f m r) (.ofResult f n s) := by
  cases r with
  | ok m' =>
    cases s with
    | ok n' => exact .next f hr
    | error e => exact hr.elim
  | error e =>
    cases s with
    | ok n' => exact hr.elim
    | error e' =>
      obtain rfl : e' = e := hr
      exact .failed e' h

theorem ofPush (h : m.Widened n) (f : Frame) (v : Value) :
    Step.ofResult f m (m.push v) = .failed (.stack (.overflow m.stack.capacity)) m ∨
      WidenedStep (.ofResult f m (m.push v)) (.ofResult f n (n.push v)) := by
  rcases h.push v with ho | hr
  · rw [ho]
    exact .inl rfl
  · exact .inr (h.ofResult f hr)

theorem perform (h : m.Widened n) (f : Frame) {i : Instruction} (hp : i.Plain) :
    (∃ m', m.perform f i = .failed (.stack (.overflow m.stack.capacity)) m') ∨
      WidenedStep (m.perform f i) (n.perform f i) := by
  cases i with
  | load k =>
    cases k with
    | number x => exact (h.ofPush f _).imp_left fun ho => ⟨_, ho⟩
    | text s =>
      have hs : Widened (m.holding s) (n.holding s) := by
        refine { h with heap := ?_ }
        simp only [holding, h.heap]
      have hp := hs.ofPush f (.string (m.heap.intern s).2)
      rw [perform_text, perform_text, h.heap]
      exact hp.imp_left fun ho => ⟨_, ho⟩
  | op code =>
    cases code with
    | constant | constantLong => cases hp
    | halt => exact .inr (.halted h)
    | nil | yes | no => exact (h.ofPush f _).imp_left fun ho => ⟨_, ho⟩
    | pop => exact .inr (h.ofResult f h.discard)
    | equal => exact .inr (h.ofResult f h.equal)
    | greater | less | subtract | multiply | divide =>
      exact .inr (h.ofResult f (h.numeric _))
    | add => exact .inr (h.ofResult f h.add)
    | not => exact .inr (h.ofResult f h.not)
    | negate => exact .inr (h.ofResult f h.negate)
    | print => exact .inr (h.ofResult f h.printTop)

theorem dispatch (h : m.Widened n) (f : Frame) :
    (∃ m', m.dispatch f = .failed (.stack (.overflow m.stack.capacity)) m') ∨
      WidenedStep (m.dispatch f) (n.dispatch f) := by
  rw [dispatch_eq, dispatch_eq]
  rcases hi : f.readInstruction with ⟨e | i, g⟩
  · exact .inr (.failed e h)
  · obtain ⟨-, -, -, -, hp⟩ := Frame.readInstruction_ok hi
    exact h.perform g hp

theorem stackText (h : m.Widened n) : n.stackText = m.stackText := by
  rw [Machine.stackText, Machine.stackText, h.stack, h.format]

theorem note (h : m.Widened n) (f : Frame) :
    match m.note f with
    | .ok m' => ∃ n', n.note f = .ok n' ∧ m'.Widened n'
    | .error e => n.note f = .error e := by
  unfold Machine.note
  rw [h.traced]
  cases m.settings.trace with
  | false => exact ⟨n, rfl, h⟩
  | true =>
    simp only [if_true]
    cases f.chunk.instructionAt f.start with
    | error e => rfl
    | ok r =>
      refine ⟨_, rfl, { h with trace := ?_ }⟩
      simp only [h.trace, h.stackText]

end Widened

/-- A run from the frame comes to an instruction that finds the stack full. -/
def FillsUpFrom (m : Machine) (f : Frame) : Prop :=
  ∃ before last capacity m', Dispatches f m before last ∧
    last.2.dispatch last.1 = .failed (.stack (.overflow capacity)) m'

def FillsUp (m : Machine) (c : Chunk) : Prop := m.cleared.FillsUpFrom (Frame.ofChunk c)

section
variable {m m' n : Machine} {f g : Frame} {e : Fault}

theorem FillsUpFrom.next (hn : m.note f.beginOp = .ok n)
    (hd : n.dispatch f.beginOp = .next g m') (h : m'.FillsUpFrom g) : m.FillsUpFrom f := by
  obtain ⟨before, last, capacity, end', hb, hl⟩ := h
  exact ⟨_, last, capacity, end', .next hn hd hb, hl⟩

theorem output_of_dispatch_failed (h : m.dispatch f = .failed e m') : m'.output = m.output := by
  rcases dispatch_failed h with rfl | ⟨s, hl⟩
  · rfl
  · obtain ⟨-, -, rfl⟩ := dispatch_loads_failed hl h
    rfl

theorem Widened.runFrom (h : m.Widened n) (bound : Nat) (f : Frame) :
    (m.FillsUpFrom f ∧
        (m.runFrom bound f).2.output.toList <+: (n.runFrom bound f).2.output.toList) ∨
      (n.runFrom bound f).1 = (m.runFrom bound f).1 ∧
        (m.runFrom bound f).2.Widened (n.runFrom bound f).2 := by
  induction bound generalizing m n f with
  | zero => exact .inr ⟨rfl, h⟩
  | succ bound ih =>
    have hnote := h.note f.beginOp
    cases hm : m.note f.beginOp with
    | error e =>
      rw [hm] at hnote
      simp only [Machine.runFrom, hm, hnote]
      exact .inr ⟨trivial, h⟩
    | ok m₁ =>
      rw [hm] at hnote
      obtain ⟨n₁, hn, h₁⟩ := hnote
      rcases h₁.dispatch f.beginOp with ⟨m', ho⟩ | hd
      · -- here the runs part, and the other one has printed no less
        have hout : (m.runFrom (bound + 1) f).2.output = n.output := by
          obtain ⟨trace, rfl⟩ := exists_trace_of_note hm
          simp only [Machine.runFrom, hm, ho]
          rw [output_of_dispatch_failed ho, h.output]
        refine .inl ⟨⟨[], _, _, m', .last hm, ho⟩, ?_⟩
        rw [hout]
        exact (n.later_runFrom (bound + 1) f).output
      · generalize hs : m₁.dispatch f.beginOp = step at hd
        generalize ht : n₁.dispatch f.beginOp = step' at hd
        simp only [Machine.runFrom, hm, hn, hs, ht]
        cases hd with
        | next g h' => exact (ih h' g).imp_left fun hf => ⟨hf.1.next hm hs, hf.2⟩
        | halted h' => exact .inr ⟨rfl, h'⟩
        | failed e h' => exact .inr ⟨rfl, h'⟩

theorem Dispatches.runFrom {before : List (Frame × Machine)} {last : Frame × Machine}
    (h : Dispatches f m before last) (hl : last.2.dispatch last.1 = .failed e m') {bound : Nat}
    (hb : before.length < bound) : m.runFrom bound f = (.ofFault last.1 e, m') := by
  induction h generalizing bound with
  | last hn =>
    obtain ⟨bound, rfl⟩ : ∃ b, bound = b + 1 := ⟨bound - 1, by omega⟩
    simp only [Machine.runFrom, hn, hl]
  | next hn hd _ ih =>
    simp only [List.length_cons] at hb
    obtain ⟨bound, rfl⟩ : ∃ b, bound = b + 1 := ⟨bound - 1, by omega⟩
    simp only [Machine.runFrom, hn, hd]
    exact ih hl (by omega)

theorem fillsUpFrom_of_failed {bound line capacity : Nat}
    (h : (m.runFrom bound f).1 = .failed ⟨line, .stack (.overflow capacity)⟩) :
    m.FillsUpFrom f := by
  have hfault {f : Frame} {e : Fault}
      (h : Ending.ofFault f e = .failed ⟨line, .stack (.overflow capacity)⟩) :
      e = .stack (.overflow capacity) := by
    unfold Ending.ofFault at h
    cases hl : f.line <;> rw [hl] at h <;> cases h
    rfl
  induction bound generalizing m f with
  | zero => cases hfault h
  | succ bound ih =>
    cases hn : m.note f.beginOp with
    | error e => simp [Machine.runFrom, hn] at h
    | ok n =>
      cases hd : n.dispatch f.beginOp with
      | next g m' =>
        simp only [Machine.runFrom, hn, hd] at h
        exact (ih h).next hn hd
      | halted m' => simp [Machine.runFrom, hn, hd] at h
      | failed e m' =>
        simp only [Machine.runFrom, hn, hd] at h
        obtain rfl := hfault h
        exact ⟨[], _, capacity, m', .last hn, hd⟩

end

theorem Widened.cleared {m n : Machine} (h : m.Widened n) : m.cleared.Widened n.cleared :=
  { h with
    capacity := h.capacity
    stack := rfl
    heap := by simp only [Machine.cleared, h.heap] }

/-- Where a run is not refused, it fills up the stack exactly if it answers so. -/
theorem fillsUp_iff {m : Machine} (hm : m.tornDown = false) {c : Chunk} {v : Verdict}
    (hv : (m.interpretChunk c).1 = .ok v) :
    m.FillsUp c ↔ ∃ line capacity, v = .runtimeError ⟨line, .stack (.overflow capacity)⟩ := by
  rw [interpretChunk_of_live hm] at hv
  constructor
  · rintro ⟨before, last, capacity, m', hd, hl⟩
    obtain ⟨hlen, -⟩ := hd.bounds (Nat.zero_le _)
    have hbound : before.length < c.code.size + 1 := Nat.lt_succ_of_le hlen
    have hrun := hd.runFrom hl hbound
    rw [hrun, Ending.ofFault] at hv
    cases hline : last.1.line with
    | ok line =>
      rw [hline] at hv
      cases hv
      exact ⟨line, capacity, rfl⟩
    | error e =>
      rw [hline] at hv
      cases hv
  · rintro ⟨line, capacity, rfl⟩
    have hrun : (m.cleared.runFrom (c.code.size + 1) (Frame.ofChunk c)).1 =
        .failed ⟨line, .stack (.overflow capacity)⟩ := by
      cases he : (m.cleared.runFrom (c.code.size + 1) (Frame.ofChunk c)).1 <;>
        rw [he] at hv <;> cases hv
      rfl
    exact fillsUpFrom_of_failed hrun

/-- As long as it does not fill up the stack, a run of any bytes comes to the same on a larger
stack: it has the same verdict and leaves the same machine. A run that fills up the stack has
printed the first part of what is printed on a larger one. -/
theorem interpretChunk_widened (m n : Machine) (h : m.Widened n) (hm : m.tornDown = false)
    (c : Chunk) :
    (¬ m.FillsUp c →
      (n.interpretChunk c).1 = (m.interpretChunk c).1 ∧
        (m.interpretChunk c).2.Widened (n.interpretChunk c).2) ∧
    (m.FillsUp c → ∃ printed more,
      (m.interpretChunk c).2.output.toList = m.output.toList ++ printed ∧
        (n.interpretChunk c).2.output.toList = n.output.toList ++ (printed ++ more)) ∧
    ∀ v, (m.interpretChunk c).1 = .ok v →
      (m.FillsUp c ↔ ∃ line capacity, v = .runtimeError ⟨line, .stack (.overflow capacity)⟩) := by
  have hrun := h.cleared.runFrom (c.code.size + 1) (Frame.ofChunk c)
  have hn : n.tornDown = false := h.tornDown.trans hm
  rw [interpretChunk_of_live hm, interpretChunk_of_live hn]
  refine ⟨fun hf => ?_, fun _ => ?_, fun v hv => fillsUp_iff hm (by rwa [interpretChunk_of_live hm])⟩
  · obtain ⟨he, hw⟩ := hrun.resolve_left fun ho => hf ho.1
    exact ⟨congrArg Ending.verdict he, hw⟩
  · obtain ⟨printed, hp⟩ := (m.cleared.later_runFrom (c.code.size + 1) (Frame.ofChunk c)).output
    have hpre : (m.cleared.runFrom (c.code.size + 1) (Frame.ofChunk c)).2.output.toList <+:
        (n.cleared.runFrom (c.code.size + 1) (Frame.ofChunk c)).2.output.toList := by
      rcases hrun with ho | ⟨-, hw⟩
      · exact ho.2
      · exact ⟨[], by rw [hw.output, List.append_nil]⟩
    obtain ⟨more, hmore⟩ := hpre
    have hout : m.cleared.output.toList = n.output.toList := congrArg Array.toList h.output.symm
    refine ⟨printed, more, hp.symm, ?_⟩
    rw [← hmore, ← hp, hout, List.append_assoc]

/-- The smaller stack has no room for a second value, when one text has been printed. -/
theorem interpretChunk_widened_printed :
    let c : Chunk := ⟨#[3, 16, 3, 3, 16, 0], #[], ⟨#[⟨1, 6⟩]⟩⟩
    let m : Machine := { new ⟨1, false, false⟩ with output := #["b"] }
    let n : Machine := { new ⟨2, false, false⟩ with output := #["b"] }
    m.Widened n ∧ m.tornDown = false ∧ m.FillsUp c ∧
      (m.interpretChunk c).1 = .ok (.runtimeError ⟨1, .stack (.overflow 1)⟩) ∧
      ∃ printed more, (m.interpretChunk c).2.output.toList = ["b"] ++ printed ∧
        (n.interpretChunk c).2.output.toList = ["b"] ++ (printed ++ more) := by
  intro c m n
  have h : m.Widened n :=
    { capacity := by decide, stack := rfl, heap := rfl, output := rfl, console := rfl
      trace := rfl, traced := rfl, echoed := rfl, tornDown := rfl }
  have hv : (m.interpretChunk c).1 = .ok (.runtimeError ⟨1, .stack (.overflow 1)⟩) := by rfl
  obtain ⟨-, hprefix, hiff⟩ := interpretChunk_widened m n h rfl c
  have hf : m.FillsUp c := (hiff _ hv).mpr ⟨1, 1, rfl⟩
  exact ⟨h, rfl, hf, hv, hprefix hf⟩

end Machine

end ExprMachine
