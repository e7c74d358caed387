import ExprMachine.Proofs.Machine.Atomicity

/-! What no instruction does to a machine. It does not tear it down, it takes back nothing that
has been printed, and it adds nothing to the trace. -/

namespace ExprMachine

def Step.machine : Step → Machine
  | .next _ m => m
  | .halted m => m
  | .failed _ m => m

/-- The faults of an instruction that cannot be read. -/
def Fault.OfReading : Fault → Prop
  | truncated _ => True
  | unknownOpcode _ => True
  | invalidConstant _ => True
  | _ => False

namespace Machine

structure Later (m m' : Machine) : Prop where
  tornDown : m'.tornDown = m.tornDown
  output : m.output.toList <+: m'.output.toList

namespace Later

variable {m m' m'' : Machine}

theorem refl (m : Machine) : m.Later m := ⟨rfl, List.prefix_rfl⟩

theorem trans (h : m.Later m') (h' : m'.Later m'') : m.Later m'' :=
  ⟨h'.tornDown.trans h.tornDown, h.output.trans h'.output⟩

end Later

/-- An operator that gives a machine gives a later one, with nothing added to the trace. One
that does not has found no fault in the code. -/
def Endures (m : Machine) : Except Fault Machine → Prop
  | .ok m' => m.Later m' ∧ m'.trace = m.trace
  | .error e => ¬e.OfReading

section
variable {m : Machine}

theorem endures_withStack (r : Except StackFault Stack) (heap : Heap) :
    m.Endures (withStack { m with heap := heap } r) := by
  cases r with
  | ok s => exact ⟨⟨rfl, List.prefix_rfl⟩, rfl⟩
  | error e => exact id

theorem endures_bind {α : Type} {r : Except Fault α} {g : α → Except Fault Machine}
    (hr : ∀ e, r = .error e → ¬e.OfReading) (hg : ∀ x, m.Endures (g x)) :
    m.Endures (r >>= g) := by
  cases r with
  | ok x => exact hg x
  | error e => exact hr e rfl

theorem endures_push (v : Value) : m.Endures (m.push v) := endures_withStack _ m.heap

theorem endures_replace (n : Nat) (v : Value) : m.Endures (m.replace n v) :=
  endures_withStack _ m.heap

theorem endures_operands {g : Value × Value → Except Fault Machine} (hg : ∀ p, m.Endures (g p)) :
    m.Endures (m.operands >>= g) := by
  refine endures_bind (fun e h => ?_) hg
  rcases m.values_cases with hs | ⟨left, right, rest, hv⟩
  · rw [operands_of_short hs] at h
    cases h
    exact id
  · rw [operands_of_values hv] at h
    cases h

theorem endures_peek {n : Nat} {g : Value → Except Fault Machine} (hg : ∀ v, m.Endures (g v)) :
    m.Endures (m.peek n >>= g) := by
  refine endures_bind (fun e h => ?_) hg
  unfold peek at h
  split at h <;> cases h
  exact id

theorem endures_ensureDepth {n : Nat} {g : Unit → Except Fault Machine}
    (hg : ∀ u, m.Endures (g u)) : m.Endures (m.ensureDepth n >>= g) := by
  refine endures_bind (fun e h => ?_) hg
  unfold ensureDepth at h
  split at h <;> cases h
  exact id

end

variable (m : Machine)

theorem endures_numeric (op : NumericOp) : m.Endures (m.numeric op) := by
  refine endures_operands fun p => ?_
  obtain ⟨v, w⟩ := p
  cases v <;> cases w <;> try exact id
  next x y =>
    by_cases hz : op = .divide ∧ (y == 0) = true
    · simp only [hz, and_self, if_true]
      exact id
    · simp only [hz, if_false]
      exact endures_replace 2 _

theorem endures_concatenate : m.Endures m.concatenate := by
  refine endures_operands fun p => ?_
  obtain ⟨v, w⟩ := p
  cases v <;> cases w <;> try exact id
  next i j =>
    cases hi : m.heap.get? i with
    | none => simp only [hi]; exact id
    | some s =>
      cases hj : m.heap.get? j with
      | none => simp only [hi, hj]; exact id
      | some t =>
        simp only [hi, hj]
        exact endures_withStack _ (m.heap.intern (s ++ t)).1

theorem endures_add : m.Endures m.add := by
  refine endures_operands fun p => ?_
  obtain ⟨v, w⟩ := p
  cases v <;> cases w <;> try exact id
  · exact m.endures_numeric .add
  · exact m.endures_concatenate

theorem endures_equal : m.Endures m.equal := endures_operands fun _ => endures_replace 2 _

theorem endures_negate : m.Endures m.negate := by
  refine endures_peek fun v => ?_
  cases v with
  | number x => exact endures_replace 1 _
  | _ => exact id

theorem endures_not : m.Endures m.not := endures_peek fun _ => endures_replace 1 _

theorem endures_discard : m.Endures m.discard :=
  endures_ensureDepth fun _ => ⟨⟨rfl, List.prefix_rfl⟩, rfl⟩

theorem endures_printTop : m.Endures m.printTop := by
  refine endures_ensureDepth fun _ => endures_peek fun v => ⟨⟨rfl, ?_⟩, rfl⟩
  simp only [print, Array.toList_push]
  exact List.prefix_append _ _

/-- What an instruction that is read in full comes to. -/
def StepEndures (m : Machine) (st : Step) : Prop :=
  m.Later st.machine ∧ st.machine.trace = m.trace ∧ ∀ e m', st = .failed e m' → ¬e.OfReading

variable {m}

theorem Endures.ofResult {r : Except Fault Machine} (h : m.Endures r) (f : Frame) :
    m.StepEndures (Step.ofResult f m r) := by
  cases r with
  | ok m' =>
    refine ⟨h.1, h.2, fun e m'' hf => ?_⟩
    cases hf
  | error e =>
    refine ⟨.refl m, rfl, fun e' m'' hf => ?_⟩
    cases hf
    exact h

theorem endures_perform (m : Machine) (f : Frame) {i : Instruction} (hp : i.Plain) :
    m.StepEndures (m.perform f i) := by
  cases i with
  | load k =>
    cases k with
    | number x => exact (endures_push _).ofResult f
    | text s =>
      have hi : m.Later { m with heap := (m.heap.intern s).1 } := ⟨rfl, List.prefix_rfl⟩
      obtain ⟨hl, ht, he⟩ := (endures_push (m := { m with heap := (m.heap.intern s).1 })
        (.string (m.heap.intern s).2)).ofResult f
      exact ⟨hi.trans hl, ht, he⟩
  | op code =>
    cases code with
    | halt =>
      refine ⟨.refl m, rfl, fun e m' hf => ?_⟩
      cases hf
    | constant | constantLong => cases hp
    | nil | yes | no => exact (endures_push _).ofResult f
    | pop => exact m.endures_discard.ofResult f
    | equal => exact m.endures_equal.ofResult f
    | greater | less | subtract | multiply | divide => exact (m.endures_numeric _).ofResult f
    | add => exact m.endures_add.ofResult f
    | not => exact m.endures_not.ofResult f
    | negate => exact m.endures_negate.ofResult f
    | print => exact m.endures_printTop.ofResult f

theorem endures_dispatch (m : Machine) (f : Frame) :
    m.Later (m.dispatch f).machine ∧ (m.dispatch f).machine.trace = m.trace := by
  rw [dispatch_eq]
  rcases hi : f.readInstruction with ⟨e | i, g⟩
  · exact ⟨.refl m, rfl⟩
  · obtain ⟨-, -, -, -, hp⟩ := Frame.readInstruction_ok hi
    obtain ⟨hl, ht, -⟩ := m.endures_perform g hp
    exact ⟨hl, ht⟩

theorem later_dispatch (m : Machine) (f : Frame) : m.Later (m.dispatch f).machine :=
  (m.endures_dispatch f).1

/-- A fault of reading comes from nothing but reading. -/
theorem dispatch_ofReading_iff {m : Machine} {f : Frame} {e : Fault} (he : e.OfReading) :
    (∃ m', m.dispatch f = .failed e m') ↔ f.readInstruction.1 = .error e := by
  rw [dispatch_eq]
  rcases hi : f.readInstruction with ⟨e' | i, g⟩
  · simp
  · obtain ⟨-, -, -, -, hp⟩ := Frame.readInstruction_ok hi
    obtain ⟨-, -, hfail⟩ := m.endures_perform g hp
    refine iff_of_false ?_ nofun
    rintro ⟨m', h⟩
    exact hfail e m' h he

theorem exists_trace_of_note {n : Machine} {f : Frame} (h : m.note f = .ok n) :
    ∃ trace, n = { m with trace := trace } := by
  unfold note at h
  split at h
  · cases hr : f.chunk.instructionAt f.start with
    | error e => rw [hr] at h; cases h
    | ok r => rw [hr] at h; cases h; exact ⟨_, rfl⟩
  · cases h
    exact ⟨_, rfl⟩

/-- What listing and dispatching keep, a whole run keeps. -/
theorem relates_runFrom {R : Machine → Machine → Prop} (refl : ∀ m, R m m)
    (trans : ∀ m m' m'', R m m' → R m' m'' → R m m'')
    (noted : ∀ (m : Machine) trace, R m { m with trace := trace })
    (dispatched : ∀ (m : Machine) f, R m (m.dispatch f).machine) (m : Machine) (bound : Nat)
    (f : Frame) : R m (m.runFrom bound f).2 := by
  induction bound generalizing m f with
  | zero => exact refl m
  | succ bound ih =>
    rw [runFrom]
    cases hn : m.note f.beginOp with
    | error e => exact refl m
    | ok n =>
      obtain ⟨trace, rfl⟩ := exists_trace_of_note hn
      have hd := trans _ _ _ (noted m trace) (dispatched { m with trace := trace } f.beginOp)
      cases hs : dispatch { m with trace := trace } f.beginOp with
      | next g m' =>
        rw [hs] at hd
        simp only [hs]
        exact trans _ _ _ hd (ih m' g)
      | halted m' | failed e m' =>
        rw [hs] at hd
        simp only [hs]
        exact hd

theorem later_runFrom (m : Machine) (bound : Nat) (f : Frame) :
    m.Later (m.runFrom bound f).2 :=
  relates_runFrom Later.refl (fun _ _ _ => Later.trans) (fun _ _ => ⟨rfl, List.prefix_rfl⟩)
    later_dispatch m bound f

end Machine

end ExprMachine
