import ExprMachine.Proofs.Compile.Heights
import ExprMachine.Proofs.Machine.Actions

/-! What an instruction that fails leaves behind. The stack and the output are as they were,
and so is the heap, unless a new string found no room on the stack. -/

namespace ExprMachine

namespace Machine

/-- An operation that takes and gives so many values has changed neither stack nor output if
it failed, and none of the values below those that it took if it did not. -/
def Leaves (m : Machine) (takes gives : Nat) {α : Type} : Outcome α → Prop
  | .ok _ m' => takes ≤ m.stack.top ∧ m'.stack.capacity = m.stack.capacity ∧
      m'.settings = m.settings ∧
      ∃ results, results.length = gives ∧ m'.values = results ++ m.values.drop takes
  | .error (.fault _) m' => m'.stack = m.stack ∧ m'.output = m.output
  | .error (.refusal _) _ => False

variable {m : Machine} {takes gives : Nat}

theorem leaves_error (e : Fault) : m.Leaves takes gives (m.outcome (.error e)) := ⟨rfl, rfl⟩

theorem Leaves.ofResult {r : Except Fault Machine} (h : m.Leaves takes gives (m.outcome r))
    (f : Frame) : m.Leaves takes gives (Step.ofResult f m r).outcome := by
  cases r <;> exact h

theorem leaves_push (v : Value) : m.Leaves 0 1 (m.outcome (m.push v)) := by
  by_cases hlt : m.values.length < m.stack.capacity
  · obtain ⟨t, ht, hc, hv⟩ := push_of_lt hlt v
    rw [ht]
    exact ⟨Nat.zero_le _, hc, rfl, [v], rfl, hv⟩
  · rw [push_of_full hlt]
    exact leaves_error _

theorem leaves_replace {n : Nat} (hn : 0 < n) (hle : n ≤ m.values.length) (v : Value)
    (heap : Heap) : m.Leaves n 1 (m.outcome (replace { m with heap := heap } n v)) := by
  obtain ⟨t, ht, hc, hv⟩ := replace_of_le (m := { m with heap := heap }) hn hle v
  rw [ht]
  exact ⟨by rwa [← length_values], hc, rfl, [v], rfl, hv⟩

theorem leaves_drop_one (hle : 1 ≤ m.values.length) :
    m.Leaves 1 0 (m.outcome (.ok { m with stack := m.stack.drop 1 })) :=
  ⟨by rwa [← length_values], rfl, rfl, [], rfl, m.values_drop 1⟩

theorem leaves_bind {α : Type} {r : Except Fault α} {g : α → Except Fault Machine}
    (hg : ∀ x, r = .ok x → m.Leaves takes gives (m.outcome (g x))) :
    m.Leaves takes gives (m.outcome (r >>= g)) := by
  cases r with
  | error e => exact leaves_error e
  | ok x => exact hg x rfl

theorem leaves_operands {g : Value × Value → Except Fault Machine}
    (hg : 2 ≤ m.values.length → ∀ v w, m.Leaves 2 gives (m.outcome (g (v, w)))) :
    m.Leaves 2 gives (m.outcome (m.operands >>= g)) :=
  leaves_bind fun p hp => hg (le_of_operands hp) p.1 p.2

theorem leaves_numeric (m : Machine) (op : NumericOp) :
    m.Leaves 2 1 (m.outcome (m.numeric op)) := by
  refine leaves_operands fun hle v w => ?_
  cases v <;> cases w <;> try exact leaves_error _
  next x y =>
    by_cases hz : op = .divide ∧ (y == 0) = true
    · simp only [hz, and_self, if_true]
      exact leaves_error _
    · simp only [hz, if_false]
      exact leaves_replace (by decide) hle _ m.heap

theorem leaves_concatenate (m : Machine) : m.Leaves 2 1 (m.outcome m.concatenate) := by
  refine leaves_operands fun hle v w => ?_
  cases v <;> cases w <;> try exact leaves_error _
  next i j =>
    cases hi : m.heap.get? i with
    | none => simp only [hi]; exact leaves_error _
    | some s =>
      cases hj : m.heap.get? j with
      | none => simp only [hi, hj]; exact leaves_error _
      | some t =>
        simp only [hi, hj]
        exact leaves_replace (by decide) hle _ _

theorem leaves_add (m : Machine) : m.Leaves 2 1 (m.outcome m.add) := by
  refine leaves_operands fun hle v w => ?_
  cases v <;> cases w <;> try exact leaves_error _
  · exact m.leaves_numeric .add
  · exact m.leaves_concatenate

theorem leaves_equal (m : Machine) : m.Leaves 2 1 (m.outcome m.equal) :=
  leaves_operands fun hle _ _ => leaves_replace (by decide) hle _ m.heap

theorem leaves_negate (m : Machine) : m.Leaves 1 1 (m.outcome m.negate) := by
  refine leaves_bind fun v hp => ?_
  have hle := lt_of_peek hp
  cases v with
  | number x => exact leaves_replace (by decide) hle _ m.heap
  | _ => exact leaves_error _

theorem leaves_not (m : Machine) : m.Leaves 1 1 (m.outcome m.not) :=
  leaves_bind fun _ hp => leaves_replace (by decide) (lt_of_peek hp) _ m.heap

theorem leaves_discard (m : Machine) : m.Leaves 1 0 (m.outcome m.discard) :=
  leaves_bind fun _ hd => leaves_drop_one (le_of_ensureDepth hd)

theorem leaves_printTop (m : Machine) : m.Leaves 1 0 (m.outcome m.printTop) :=
  leaves_bind fun _ hd => leaves_bind fun _ _ => leaves_drop_one (le_of_ensureDepth hd)

theorem leaves_perform_load (m : Machine) (f : Frame) (k : Constant) :
    m.Leaves 0 1 (m.perform f (.load k)).outcome := by
  cases k with
  | number x => exact (leaves_push _).ofResult f
  | text s => exact (leaves_push (m := { m with heap := (m.heap.intern s).1 }) _).ofResult f

theorem leaves_load (m : Machine) (f : Frame) (index : Except Fault Nat) :
    m.Leaves 0 1 (m.load f index).outcome := by
  rw [load_eq]
  cases index with
  | error e => exact ⟨rfl, rfl⟩
  | ok index =>
    cases hi : f.readLoad (.ok index) with
    | error e => exact ⟨rfl, rfl⟩
    | ok i =>
      obtain ⟨k, -, rfl⟩ := Frame.readLoad_ok hi
      exact m.leaves_perform_load f k

theorem leaves_execute (m : Machine) (f : Frame) (op : Opcode) :
    m.Leaves (Instruction.op op).takes (Instruction.op op).gives (m.execute f op).outcome := by
  cases op with
  | halt => exact ⟨Nat.zero_le _, rfl, rfl, [], rfl, rfl⟩
  | constant | constantLong => exact m.leaves_load _ _
  | nil | yes | no => exact (leaves_push _).ofResult f
  | pop => exact m.leaves_discard.ofResult f
  | equal => exact m.leaves_equal.ofResult f
  | greater | less | subtract | multiply | divide => exact (m.leaves_numeric _).ofResult f
  | add => exact m.leaves_add.ofResult f
  | not => exact m.leaves_not.ofResult f
  | negate => exact m.leaves_negate.ofResult f
  | print => exact m.leaves_printTop.ofResult f

theorem leaves_perform (m : Machine) (f : Frame) (i : Instruction) :
    m.Leaves i.takes i.gives (m.perform f i).outcome := by
  cases i with
  | load k => exact m.leaves_perform_load f k
  | op code => exact m.leaves_execute f code

/-- Every instruction and every operator comes to what its looks, pops and pushes do one after
the other. None of them fails once a value has been popped, and what lies below the operands
is never touched. -/
theorem operations_atomic (m : Machine) :
    (∀ f op, (Action.execute f op).run m = (m.execute f op).outcome ∧
      m.Leaves (Instruction.op op).takes (Instruction.op op).gives ((Action.execute f op).run m)) ∧
    (∀ v, (Action.push v).run m = m.outcome (m.push v) ∧ m.Leaves 0 1 ((Action.push v).run m)) ∧
    (∀ op, (Action.numeric op).run m = m.outcome (m.numeric op) ∧
      m.Leaves 2 1 ((Action.numeric op).run m)) ∧
    Action.concatenate.run m = m.outcome m.concatenate ∧
      m.Leaves 2 1 (Action.concatenate.run m) := by
  refine ⟨fun f op => ?_, fun v => ?_, fun op => ?_, ?_⟩
  · rw [Action.execute_eq]
    exact ⟨rfl, m.leaves_execute f op⟩
  · rw [Action.push_eq]
    exact ⟨rfl, leaves_push v⟩
  · rw [Action.numeric_eq]
    exact ⟨rfl, m.leaves_numeric op⟩
  · rw [Action.concatenate_eq]
    exact ⟨rfl, m.leaves_concatenate⟩

end Machine

/-- The next instruction loads a text. -/
def Frame.Loads (f : Frame) (s : String) : Prop :=
  ∃ g, f.readInstruction = (.ok (.load (.text s)), g)

theorem Step.ofResult_failed {f : Frame} {m m' : Machine} {r : Except Fault Machine} {e : Fault}
    (h : ofResult f m r = .failed e m') : r = .error e ∧ m' = m := by
  cases r with
  | ok _ => cases h
  | error e' => cases h; exact ⟨rfl, rfl⟩

theorem Heap.intern_of_mem {h : Heap} {s : String} (hs : s ∈ h.interned) : (h.intern s).1 = h := by
  rw [Heap.intern, Std.HashMap.getElem?_eq_some_getElem hs]

namespace Machine

def holding (m : Machine) (s : String) : Machine := { m with heap := (m.heap.intern s).1 }

variable {m m' : Machine} {f : Frame} {e : Fault} {s : String}

theorem perform_text (m : Machine) (f : Frame) (s : String) :
    m.perform f (.load (.text s)) =
      .ofResult f (m.holding s) ((m.holding s).push (.string (m.heap.intern s).2)) := rfl

theorem perform_cases {i : Instruction} (hp : i.Plain) (m : Machine) (f : Frame) :
    (i = .op .halt ∧ m.perform f i = .halted m) ∨
      ∃ n r, m.perform f i = .ofResult f n r ∧ (n = m ∨ ∃ s, i = .load (.text s)) := by
  cases i with
  | load k =>
    cases k with
    | number x => exact .inr ⟨m, _, rfl, .inl rfl⟩
    | text s => exact .inr ⟨m.holding s, _, rfl, .inr ⟨s, rfl⟩⟩
  | op code =>
    cases code with
    | halt => exact .inl ⟨rfl, rfl⟩
    | constant | constantLong => cases hp
    | _ => exact .inr ⟨m, _, rfl, .inl rfl⟩

theorem perform_failed {i : Instruction} (hp : i.Plain) (h : m.perform f i = .failed e m') :
    m' = m ∨ ∃ s, i = .load (.text s) := by
  rcases perform_cases hp m f with ⟨-, hc⟩ | ⟨n, r, hc, hn⟩ <;> rw [hc] at h
  · cases h
  · obtain ⟨-, rfl⟩ := Step.ofResult_failed h
    exact hn

theorem dispatch_failed (h : m.dispatch f = .failed e m') : m' = m ∨ ∃ s, f.Loads s := by
  rw [dispatch_eq] at h
  rcases hi : f.readInstruction with ⟨e' | i, g⟩ <;> rw [hi] at h
  · cases h
    exact .inl rfl
  · obtain ⟨-, -, -, -, hp⟩ := Frame.readInstruction_ok hi
    refine (perform_failed hp h).imp_right ?_
    rintro ⟨s, rfl⟩
    exact ⟨s, g, hi⟩

theorem dispatch_loads_full (hl : f.Loads s) (hfull : ¬ m.values.length < m.stack.capacity) :
    m.dispatch f = .failed (.stack (.overflow m.stack.capacity)) (m.holding s) := by
  obtain ⟨g, hi⟩ := hl
  have hf : ¬ (m.holding s).values.length < (m.holding s).stack.capacity := hfull
  rw [dispatch_eq, hi]
  simp only [perform_text, push_of_full hf, Step.ofResult]
  rfl

theorem dispatch_loads_room (hl : f.Loads s) (hroom : m.values.length < m.stack.capacity) :
    ∃ g m', m.dispatch f = .next g m' := by
  obtain ⟨g, hi⟩ := hl
  have hr : (m.holding s).values.length < (m.holding s).stack.capacity := hroom
  obtain ⟨t, ht, -⟩ := push_of_lt hr (.string (m.heap.intern s).2)
  rw [dispatch_eq, hi]
  simp only [perform_text, ht]
  exact ⟨_, _, rfl⟩

theorem dispatch_loads_failed (hl : f.Loads s) (h : m.dispatch f = .failed e m') :
    e = .stack (.overflow m.stack.capacity) ∧ m.values.length = m.stack.capacity ∧
      m' = m.holding s := by
  by_cases hroom : m.values.length < m.stack.capacity
  · obtain ⟨g, n, hn⟩ := dispatch_loads_room hl hroom
    rw [hn] at h
    cases h
  · rw [dispatch_loads_full hl hroom] at h
    cases h
    exact ⟨rfl, Nat.le_antisymm m.length_values_le (Nat.le_of_not_lt hroom), rfl⟩

/-- An instruction that fails leaves the heap as it was, unless it loads a text that the heap
does not hold. Such a load fails if the stack is full, and then the text is interned. -/
theorem heap_of_dispatch_failed (m m' : Machine) (f : Frame) (e : Fault)
    (h : m.dispatch f = .failed e m') :
    (Action.dispatch f).run m = .error (.fault e) m' ∧
    ((∀ s, f.Loads s → s ∈ m.heap.interned) → m'.heap = m.heap) ∧
    ∀ s, f.Loads s → e = .stack (.overflow m.stack.capacity) ∧
      m.values.length = m.stack.capacity ∧ m'.heap = (m.heap.intern s).1 := by
  refine ⟨?_, ?_, ?_⟩
  · rw [Action.dispatch_eq, h]
    rfl
  · intro hs
    rcases dispatch_failed h with rfl | ⟨s, hl⟩
    · rfl
    · obtain ⟨-, -, rfl⟩ := dispatch_loads_failed hl h
      exact Heap.intern_of_mem (hs s hl)
  · intro s hl
    obtain ⟨he, ht, rfl⟩ := dispatch_loads_failed hl h
    exact ⟨he, ht, rfl⟩

theorem heap_of_dispatch_failed_known :
    let m : Machine := { new ⟨1, false, false⟩ with
      stack := ⟨1, #[.string 1], 1, by decide, by decide⟩
      heap := (Heap.empty.intern "a").1 }
    let f : Frame := ⟨⟨#[1, 0, 1, 0, 7, 6, 0], #[.text "a"], ⟨#[⟨1, 7⟩]⟩⟩, 2, 2⟩
    ∃ m', m.dispatch f = .failed (.stack (.overflow 1)) m' ∧ m'.heap = m.heap := by
  intro m f
  have hl : f.Loads "a" := ⟨_, rfl⟩
  have hd := dispatch_loads_full (m := m) hl (by decide)
  obtain ⟨-, hh, -⟩ := heap_of_dispatch_failed m _ f _ hd
  refine ⟨_, hd, hh ?_⟩
  rintro s ⟨g, hg⟩
  cases hg
  simp [m, Heap.intern, Heap.empty]

/-- The text has found no room on the stack, and is on the heap nevertheless. -/
theorem heap_grows_on_overflow :
    let m : Machine := { new ⟨1, false, false⟩ with
      stack := ⟨1, #[.nil], 1, by decide, by decide⟩ }
    let f : Frame := ⟨⟨#[3, 1, 0, 7, 6, 0], #[.text "a"], ⟨#[⟨1, 6⟩]⟩⟩, 1, 1⟩
    ∃ m', m.dispatch f = .failed (.stack (.overflow 1)) m' ∧
      m.heap.size = 0 ∧ m'.heap.size = 1 ∧ m.heap.bytes = 0 ∧ m'.heap.bytes = 1 := by
  intro m f
  have hl : f.Loads "a" := ⟨_, rfl⟩
  refine ⟨_, dispatch_loads_full hl (by decide), rfl, ?_, rfl, ?_⟩
  · simp [m, holding, new, Heap.intern, Heap.empty, Heap.size, Std.HashMap.size_insert]
  · simp only [m, holding, new, Heap.intern, Heap.empty, Std.HashMap.getElem?_empty]
    decide

end Machine

end ExprMachine
