import ExprMachine.Proofs.Machine.Values
import ExprMachine.Machine.Run

/-! The instructions carried out one look, pop or push after the other. What an action has
changed stays changed when a later one fails, and no value is taken from an empty stack
without a refusal. -/

namespace ExprMachine

/-- What keeps an action from going on. -/
inductive Stop where
  | fault (fault : Fault)
  | refusal (refusal : Refusal)

abbrev Action := EStateM Stop Machine

abbrev Outcome := EStateM.Result Stop Machine

def Step.outcome : Step → Outcome (Option Frame)
  | .next f m => .ok (some f) m
  | .halted m => .ok none m
  | .failed e m => .error (.fault e) m

/-- An operator that fails leaves the machine as it is. -/
def Machine.outcome (m : Machine) : Except Fault Machine → Outcome Unit
  | .ok m' => .ok () m'
  | .error e => .error (.fault e) m

namespace Action

variable {α β : Type} {m m' : Machine}

def fail (e : Fault) : Action α := throw (.fault e)

/-- Looks at the machine, or finds a fault, and changes nothing. -/
def look (r : Machine → Except Fault α) : Action α := fun m =>
  match r m with
  | .ok a => .ok a m
  | .error e => .error (.fault e) m

def ensureDepth (needed : Nat) : Action Unit := look fun m => m.ensureDepth needed

def peek (distance : Nat) : Action Value := look fun m => m.peek distance

def push (v : Value) : Action Unit := fun m =>
  match m.push v with
  | .ok m' => .ok () m'
  | .error e => .error (.fault e) m

def pop : Action Value := fun m =>
  match m.pop with
  | .ok (v, m') => .ok v m'
  | .error r => .error (.refusal r) m

def popTimes (n : Nat) : Action Unit := fun m =>
  match m.popTimes n with
  | (.ok (), m') => .ok () m'
  | (.error r, m') => .error (.refusal r) m'

def intern (s : String) : Action Nat := fun m =>
  let (heap, id) := m.heap.intern s
  .ok id { m with heap := heap }

def print (v : Value) : Action Unit := modify fun m => m.print v

def operands : Action (Value × Value) := do
  ensureDepth 2
  let left ← peek 1
  let right ← peek 0
  return (left, right)

def numeric (op : NumericOp) : Action Unit := do
  match ← operands with
  | (.number x, .number y) =>
    if op = .divide ∧ (y == 0) = true then fail .divisionByZero
    else
      popTimes 2
      push (op.apply x y)
  | (left, right) => fail (.notNumbers op left.type right.type)

def concatenate : Action Unit := do
  match ← operands with
  | (.string i, .string j) =>
    let heap := (← get).heap
    match heap.get? i, heap.get? j with
    | some s, some t =>
      let id ← intern (s ++ t)
      popTimes 2
      push (.string id)
    | _, _ => fail .danglingString
  | (left, right) => fail (.notStrings left.type right.type)

def add : Action Unit := do
  match ← operands with
  | (.number _, .number _) => numeric .add
  | (.string _, .string _) => concatenate
  | (left, right) => fail (.notNumbersNorStrings left.type right.type)

def equal : Action Unit := do
  ensureDepth 2
  let right ← pop
  let left ← pop
  push (.boolean (left.equal right))

def negate : Action Unit := do
  match ← peek 0 with
  | .number x =>
    let _ ← pop
    push (.number (-x))
  | v => fail (.notNumber v.type)

def not : Action Unit := do
  let v ← peek 0
  let _ ← pop
  push (.boolean v.isFalsey)

def discard : Action Unit := do
  ensureDepth 1
  let _ ← pop

def printTop : Action Unit := do
  ensureDepth 1
  print (← pop)

def pushConstant : Constant → Action Unit
  | .number bits => push (.number (Float.ofBits bits))
  | .text s => do
    let id ← intern s
    push (.string id)

def load (f : Frame) (index : Except Fault Nat) : Action (Option Frame) := do
  let index ← look fun _ => index
  let constant ← look fun _ => f.constant index
  pushConstant constant
  return some f

def andGoOn (a : Action Unit) (f : Frame) : Action (Option Frame) := do
  a
  return some f

/-- Gives the frame to go on from, if there is one. -/
def execute (f : Frame) : Opcode → Action (Option Frame)
  | .halt => return none
  | .constant =>
    let (byte, f) := f.readByte
    load f (byte.map UInt8.toNat)
  | .constantLong =>
    let (index, f) := f.readLong
    load f index
  | .nil => (push .nil).andGoOn f
  | .yes => (push (.boolean true)).andGoOn f
  | .no => (push (.boolean false)).andGoOn f
  | .pop => discard.andGoOn f
  | .equal => equal.andGoOn f
  | .greater => (numeric .greater).andGoOn f
  | .less => (numeric .less).andGoOn f
  | .add => add.andGoOn f
  | .subtract => (numeric .subtract).andGoOn f
  | .multiply => (numeric .multiply).andGoOn f
  | .divide => (numeric .divide).andGoOn f
  | .not => not.andGoOn f
  | .negate => negate.andGoOn f
  | .print => printTop.andGoOn f

def dispatch (f : Frame) : Action (Option Frame) := do
  let byte ← look fun _ => f.readByte.1
  match Opcode.ofByte? byte with
  | some op => execute f.readByte.2 op
  | none => fail (.unknownOpcode byte)

theorem bind_ok {a : Action α} {g : α → Action β} {x : α} (h : a.run m = .ok x m') :
    (a >>= g).run m = (g x).run m' := by
  rw [EStateM.run_bind, h]

theorem bind_error {a : Action α} {g : α → Action β} {e : Stop} (h : a.run m = .error e m') :
    (a >>= g).run m = .error e m' := by
  rw [EStateM.run_bind, h]

theorem look_ok {r : Machine → Except Fault α} {a : α} (h : r m = .ok a) :
    (look r).run m = .ok a m := by
  simp only [look, EStateM.run, h]

theorem look_error {r : Machine → Except Fault α} {e : Fault} (h : r m = .error e) :
    (look r).run m = .error (.fault e) m := by
  simp only [look, EStateM.run, h]

theorem look_bind {r : Machine → Except Fault α} {a : α → Action Unit}
    {g : α → Except Fault Machine} (h : ∀ x, r m = .ok x → (a x).run m = m.outcome (g x)) :
    (look r >>= a).run m = m.outcome (r m >>= g) := by
  cases hr : r m with
  | error e =>
    rw [bind_error (look_error hr)]
    rfl
  | ok x =>
    rw [bind_ok (look_ok hr)]
    exact h x hr

end Action

theorem Stack.pop?_eq (s : Stack) : s.pop? = (s.peek? 0).map fun v => (v, s.drop 1) := by
  unfold pop? peek? drop
  split
  · next h => rw [if_neg (by omega)]; rfl
  · next n h =>
    have hn : n < s.used.size := Nat.lt_of_lt_of_le (h ▸ Nat.lt_succ_self n) s.top_le
    simp [h, hn]

theorem Stack.drop_drop (s : Stack) (i j : Nat) : (s.drop i).drop j = s.drop (i + j) := by
  simp only [drop, Nat.sub_sub]

namespace Machine

variable {m : Machine}

theorem values_cases (m : Machine) :
    m.values.length < 2 ∨ ∃ left right rest, m.values = right :: left :: rest := by
  rcases m.values with _ | ⟨right, _ | ⟨left, rest⟩⟩
  · exact .inl (by decide)
  · exact .inl (Nat.lt_succ_self 1)
  · exact .inr ⟨left, right, rest, rfl⟩

theorem le_of_operands {p : Value × Value} (h : m.operands = .ok p) : 2 ≤ m.values.length := by
  refine Nat.le_of_not_lt fun hs => ?_
  rw [operands_of_short hs] at h
  cases h

theorem le_of_ensureDepth {n : Nat} {u : Unit} (h : m.ensureDepth n = .ok u) :
    n ≤ m.values.length := by
  refine Nat.le_of_not_lt fun hs => ?_
  rw [ensureDepth_of_short hs] at h
  cases h

theorem lt_of_peek {n : Nat} {v : Value} (h : m.peek n = .ok v) : n < m.values.length := by
  refine Nat.lt_of_not_le fun hs => ?_
  rw [peek_of_short hs] at h
  cases h

theorem exists_of_peek {v : Value} (h : m.peek 0 = .ok v) : ∃ rest, m.values = v :: rest := by
  obtain ⟨w, rest, hv⟩ := List.exists_cons_of_length_pos (lt_of_peek h)
  rw [peek_of_lt (show m.values[0]? = some w by rw [hv]; rfl)] at h
  cases h
  exact ⟨rest, hv⟩

theorem pop_of_values {v : Value} {rest : List Value} (h : m.values = v :: rest) :
    m.pop = .ok (v, { m with stack := m.stack.drop 1 }) := by
  have hp : m.stack.peek? 0 = some v := by
    rw [Stack.peek?_eq, ← values, h]
    rfl
  simp [pop, Stack.pop?_eq, hp]

end Machine

namespace Action

variable {m : Machine}

theorem pop_of_values {v : Value} {rest : List Value} (h : m.values = v :: rest) :
    pop.run m = .ok v { m with stack := m.stack.drop 1 } := by
  simp only [pop, EStateM.run, Machine.pop_of_values h]

theorem popTimes_of_le {n : Nat} (h : n ≤ m.values.length) :
    (popTimes n).run m = .ok () { m with stack := m.stack.drop n } := by
  rw [Machine.length_values] at h
  simp only [popTimes, EStateM.run, Machine.popTimes, if_pos h]

/-- Values that are taken make room for one that is pushed. -/
theorem push_of_dropped {n : Nat} (hn : 0 < n) (h : n ≤ m.values.length) (v : Value) :
    (push v).run { m with stack := m.stack.drop n } = m.outcome (m.replace n v) := by
  obtain ⟨t, ht, -⟩ := Machine.replace_of_le hn h v
  have hp : Machine.push { m with stack := m.stack.drop n } v = .ok { m with stack := t } := by
    simp only [Machine.push, Machine.withStack]
    simp only [Machine.replace, Machine.withStack] at ht
    cases hs : (m.stack.drop n).push v with
    | ok s => rw [hs] at ht; cases ht; rfl
    | error e => rw [hs] at ht; cases ht
  simp only [push, EStateM.run, hp, ht, Machine.outcome]

theorem operands_eq (m : Machine) : operands.run m = (look Machine.operands).run m := by
  rcases m.values_cases with hs | ⟨left, right, rest, hv⟩
  · have hd := Machine.ensureDepth_of_short hs
    rw [look_error (Machine.operands_of_short hs), operands]
    exact bind_error (look_error hd)
  · have h₀ : m.peek 0 = .ok right := Machine.peek_of_lt (by rw [hv]; rfl)
    have h₁ : m.peek 1 = .ok left := Machine.peek_of_lt (by rw [hv]; rfl)
    have hd : m.ensureDepth 2 = .ok () := Machine.ensureDepth_of_le (by simp [hv])
    rw [look_ok (Machine.operands_of_values hv), operands, ensureDepth, bind_ok (look_ok hd),
      peek, bind_ok (look_ok h₁), peek, bind_ok (look_ok h₀)]
    rfl

theorem operands_bind {a : Value × Value → Action Unit} {g : Value × Value → Except Fault Machine}
    (h : 2 ≤ m.values.length → ∀ v w, (a (v, w)).run m = m.outcome (g (v, w))) :
    (operands >>= a).run m = m.outcome (m.operands >>= g) := by
  rw [EStateM.run_bind, operands_eq, ← EStateM.run_bind]
  exact look_bind fun p hp => h (Machine.le_of_operands hp) p.1 p.2

theorem numeric_eq (m : Machine) (op : NumericOp) :
    (numeric op).run m = m.outcome (m.numeric op) := by
  refine operands_bind fun hle v w => ?_
  cases v <;> cases w <;> try rfl
  next x y =>
    by_cases hz : op = .divide ∧ (y == 0) = true
    · simp only [hz, and_self, if_true]
      rfl
    · simp only [hz, if_false]
      exact (bind_ok (popTimes_of_le hle)).trans (push_of_dropped (by decide) hle _)

theorem concatenate_eq (m : Machine) : concatenate.run m = m.outcome m.concatenate := by
  refine operands_bind fun hle v w => ?_
  cases v <;> cases w <;> try rfl
  next i j =>
    have hg : (get : Action Machine).run m = .ok m m := rfl
    refine (bind_ok hg).trans ?_
    cases hs : m.heap.get? i with
    | none => simp only [hs]; rfl
    | some s =>
      cases ht : m.heap.get? j with
      | none => simp only [hs, ht]; rfl
      | some t =>
        -- the heap may grow, but then nothing is left that could fail
        obtain ⟨heap, id, hin⟩ : ∃ heap id, m.heap.intern (s ++ t) = (heap, id) := ⟨_, _, rfl⟩
        have hi : (intern (s ++ t)).run m = .ok id { m with heap := heap } := by
          simp only [intern, EStateM.run, hin]
        have hle' : 2 ≤ (Machine.values { m with heap := heap }).length := hle
        obtain ⟨u, hu, -⟩ := Machine.replace_of_le (show 0 < 2 by decide) hle' (.string id)
        simp only [hs, ht]
        refine (bind_ok hi).trans ((bind_ok (popTimes_of_le hle')).trans ?_)
        rw [push_of_dropped (by decide) hle']
        simp only [hin, hu]
        rfl

theorem add_eq (m : Machine) : add.run m = m.outcome m.add := by
  refine operands_bind fun hle v w => ?_
  cases v <;> cases w <;> try rfl
  · exact numeric_eq m .add
  · exact concatenate_eq m

theorem equal_eq (m : Machine) : equal.run m = m.outcome m.equal := by
  unfold equal Machine.equal
  rcases m.values_cases with hs | ⟨left, right, rest, hv⟩
  · have hd := Machine.ensureDepth_of_short hs
    rw [Machine.operands_of_short hs]
    exact bind_error (look_error hd)
  · have hle : 2 ≤ m.values.length := by simp [hv]
    have hd : m.ensureDepth 2 = .ok () := Machine.ensureDepth_of_le hle
    have hv' : Machine.values { m with stack := m.stack.drop 1 } = left :: rest := by
      rw [Machine.values, Machine.values_drop, hv]
      rfl
    rw [Machine.operands_of_values hv, ensureDepth, bind_ok (look_ok hd),
      bind_ok (pop_of_values hv), bind_ok (pop_of_values hv'), Stack.drop_drop]
    exact push_of_dropped (by decide) hle _

theorem pop_push {v : Value} {rest : List Value} (h : m.values = v :: rest) (w : Value) :
    (do let _ ← pop; push w : Action Unit).run m = m.outcome (m.replace 1 w) :=
  (bind_ok (pop_of_values h)).trans (push_of_dropped (by decide) (by simp [h]) w)

theorem negate_eq (m : Machine) : negate.run m = m.outcome m.negate := by
  refine look_bind (r := fun m => m.peek 0) fun v hp => ?_
  obtain ⟨rest, hv⟩ := Machine.exists_of_peek hp
  cases v with
  | number x => exact pop_push hv _
  | _ => rfl

theorem not_eq (m : Machine) : not.run m = m.outcome m.not := by
  refine look_bind (r := fun m => m.peek 0) fun v hp => ?_
  obtain ⟨rest, hv⟩ := Machine.exists_of_peek hp
  exact pop_push hv _

theorem discard_eq (m : Machine) : discard.run m = m.outcome m.discard := by
  refine look_bind (r := fun m => m.ensureDepth 1) fun _ hd => ?_
  obtain ⟨v, rest, hv⟩ := List.exists_cons_of_length_pos (Machine.le_of_ensureDepth hd)
  exact bind_ok (pop_of_values hv)

theorem printTop_eq (m : Machine) : printTop.run m = m.outcome m.printTop := by
  refine look_bind (r := fun m => m.ensureDepth 1) fun _ hd => ?_
  obtain ⟨v, rest, hv⟩ := List.exists_cons_of_length_pos (Machine.le_of_ensureDepth hd)
  have hp : m.peek 0 = .ok v := Machine.peek_of_lt (by rw [hv]; rfl)
  rw [bind_ok (pop_of_values hv), hp]
  rfl

theorem push_eq (m : Machine) (v : Value) : (push v).run m = m.outcome (m.push v) := by
  simp only [push, EStateM.run]
  cases m.push v <;> rfl

theorem andGoOn_eq {a : Action Unit} {r : Except Fault Machine} (h : a.run m = m.outcome r)
    (f : Frame) : (a.andGoOn f).run m = (Step.ofResult f m r).outcome := by
  unfold andGoOn
  rw [EStateM.run_bind, h]
  cases r <;> rfl

/-- The string is interned before there is a look at the room on the stack. -/
theorem load_eq (m : Machine) (f : Frame) (index : Except Fault Nat) :
    (load f index).run m = (m.load f index).outcome := by
  unfold load Machine.load
  cases index with
  | error e => rfl
  | ok index =>
    dsimp only
    rw [bind_ok (look_ok (r := fun _ => .ok index) rfl)]
    cases f.constant index with
    | error e => rfl
    | ok k =>
      rw [bind_ok (look_ok (r := fun _ => .ok k) rfl)]
      cases k with
      | number bits => exact andGoOn_eq (push_eq m _) f
      | text s => exact andGoOn_eq (push_eq { m with heap := (m.heap.intern s).1 } _) f

theorem execute_eq (m : Machine) (f : Frame) (op : Opcode) :
    (execute f op).run m = (m.execute f op).outcome := by
  cases op with
  | halt => rfl
  | constant => exact load_eq m _ _
  | constantLong => exact load_eq m _ _
  | nil | yes | no => exact andGoOn_eq (push_eq m _) f
  | pop => exact andGoOn_eq (discard_eq m) f
  | equal => exact andGoOn_eq (equal_eq m) f
  | greater | less | subtract | multiply | divide => exact andGoOn_eq (numeric_eq m _) f
  | add => exact andGoOn_eq (add_eq m) f
  | not => exact andGoOn_eq (not_eq m) f
  | negate => exact andGoOn_eq (negate_eq m) f
  | print => exact andGoOn_eq (printTop_eq m) f

/-- Instructions that are dispatched come to what their actions do one after the other. -/
theorem dispatch_eq (m : Machine) (f : Frame) :
    (dispatch f).run m = (m.dispatch f).outcome := by
  unfold dispatch Machine.dispatch
  rcases hr : f.readByte with ⟨e | byte, g⟩
  · rfl
  · refine (bind_ok (look_ok (r := fun _ => .ok byte) rfl)).trans ?_
    cases hb : Opcode.ofByte? byte with
    | none => simp only [hb]; rfl
    | some op => simp only [hb]; exact execute_eq m g op

end Action

end ExprMachine
