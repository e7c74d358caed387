import ExprMachine.Proofs.Compile.Verified
import ExprMachine.Proofs.Machine.Atomicity

/-! An instruction reads and takes only what is there. Where something is missing, nothing is
read, and the fault tells what is missing. -/

namespace ExprMachine

/-- What is amiss at a frame whose code is read from `f.next` on, by the fault that it leads to. -/
inductive Fault.Tells (f : Frame) (m : Machine) : Fault → Prop
  | truncated :
    (∀ byte, f.chunk.code[f.next]? = some byte →
      f.chunk.code.size < f.next + Chunk.instructionSize byte) →
    Tells f m (.truncated f.chunk.code.size)
  | unknownOpcode {byte : UInt8} : f.chunk.code[f.next]? = some byte →
    Opcode.all.length ≤ byte.toNat → Tells f m (.unknownOpcode byte)
  | invalidConstant {byte : UInt8} {op : Opcode} {operand : List UInt8} :
    f.chunk.code[f.next]? = some byte → Opcode.ofByte? byte = some op →
    f.chunk.operandBytes? f.next op.operandWidth = some operand →
    f.chunk.constants.size ≤ Chunk.operandValue operand →
    Tells f m (.invalidConstant (Chunk.operandValue operand))
  | overflow : m.stack.top = m.stack.capacity → Tells f m (.stack (.overflow m.stack.capacity))
  | underflow {i : Instruction} {g : Frame} : f.readInstruction = (.ok i, g) →
    m.stack.top < i.takes → Tells f m (.stack (.underflow i.takes m.stack.top))
  | notNumbersNorStrings {left right : Value} : m.operands = .ok (left, right) →
    Tells f m (.notNumbersNorStrings left.type right.type)
  | notNumbers {op : NumericOp} {left right : Value} : m.operands = .ok (left, right) →
    Tells f m (.notNumbers op left.type right.type)
  | notNumber {v : Value} : m.peek 0 = .ok v → Tells f m (.notNumber v.type)
  | danglingString {i j : Nat} : m.operands = .ok (.string i, .string j) →
    m.heap.get? i = none ∨ m.heap.get? j = none → Tells f m .danglingString
  | divisionByZero {x y : Float} : m.operands = .ok (.number x, .number y) → (y == 0) = true →
    Tells f m .divisionByZero

namespace Frame

variable {f g : Frame} {e : Fault}

theorem readByte_error (h : f.readByte = (.error e, g)) (hn : f.next ≤ f.chunk.code.size) :
    f.next = f.chunk.code.size ∧ e = .truncated f.chunk.code.size ∧ g = f := by
  unfold readByte at h
  split at h
  · cases h
  · next hb =>
    have he : f.next = f.chunk.code.size :=
      Nat.le_antisymm hn (Array.getElem?_eq_none_iff.mp hb)
    cases h
    exact ⟨he, by rw [he], rfl⟩

theorem readLong_error (h : f.readLong = (.error e, g)) (hn : f.next ≤ f.chunk.code.size) :
    f.chunk.code.size < f.next + 3 ∧ e = .truncated f.chunk.code.size := by
  unfold readLong at h
  rcases h₁ : f.readByte with ⟨e₁ | a, f₁⟩ <;> rw [h₁] at h
  · obtain ⟨hs, rfl, -⟩ := readByte_error h₁ hn
    cases h
    exact ⟨by omega, rfl⟩
  obtain ⟨ha, rfl⟩ := readByte_ok h₁
  have hna : f.next + 1 ≤ f.chunk.code.size := (Array.getElem?_eq_some_iff.mp ha).1
  rcases h₂ : Frame.readByte ⟨f.chunk, f.next + 1, f.start⟩ with ⟨e₂ | b, f₂⟩ <;>
    simp only [h₂] at h
  · obtain ⟨hs, rfl, -⟩ := readByte_error h₂ hna
    cases h
    exact ⟨by simp only at hs; omega, rfl⟩
  obtain ⟨hb, rfl⟩ := readByte_ok h₂
  have hnb : f.next + 1 + 1 ≤ f.chunk.code.size := (Array.getElem?_eq_some_iff.mp hb).1
  rcases h₃ : Frame.readByte ⟨f.chunk, f.next + 1 + 1, f.start⟩ with ⟨e₃ | c, f₃⟩ <;>
    simp only [h₃] at h
  · obtain ⟨hs, rfl, -⟩ := readByte_error h₃ hnb
    cases h
    exact ⟨by simp only at hs; omega, rfl⟩
  · cases h

theorem readLoad_error {index : Nat} (h : f.readLoad (.ok index) = .error e) :
    f.chunk.constants.size ≤ index ∧ e = .invalidConstant index := by
  rw [readLoad, constant] at h
  cases hk : f.chunk.constants[index]? with
  | none =>
    rw [hk] at h
    cases h
    exact ⟨Array.getElem?_eq_none_iff.mp hk, rfl⟩
  | some k => rw [hk] at h; cases h

section
variable {byte : UInt8} {op : Opcode} (m : Machine) (hb : f.chunk.code[f.next]? = some byte)
  (hop : Opcode.ofByte? byte = some op)
include hb hop

theorem truncated_tells (hs : f.chunk.code.size < f.next + 1 + op.operandWidth) :
    Fault.Tells f m (.truncated f.chunk.code.size) := by
  refine .truncated fun byte' hb' => ?_
  cases hb.symm.trans hb'
  simp only [Chunk.instructionSize, hop]
  omega

theorem readLoad_tells {operand : List UInt8} {next : Nat}
    (ho : f.chunk.operandBytes? f.next op.operandWidth = some operand)
    (h : readLoad ⟨f.chunk, next, f.start⟩ (.ok (Chunk.operandValue operand)) = .error e) :
    e.Tells f m := by
  obtain ⟨hk, rfl⟩ := readLoad_error h
  exact .invalidConstant hb hop ho hk

end

theorem readInstruction_error (h : f.readInstruction = (.error e, g))
    (hn : f.next ≤ f.chunk.code.size) (m : Machine) : e.Tells f m := by
  unfold readInstruction at h
  rcases hr : f.readByte with ⟨e₁ | byte, f₁⟩ <;> rw [hr] at h
  · obtain ⟨hs, rfl, -⟩ := readByte_error hr hn
    cases h
    refine .truncated fun byte hb => ?_
    have hlt := (Array.getElem?_eq_some_iff.mp hb).1
    omega
  obtain ⟨hb, rfl⟩ := readByte_ok hr
  have hn₁ : f.next + 1 ≤ f.chunk.code.size := (Array.getElem?_eq_some_iff.mp hb).1
  simp only at h
  split at h
  · next hop =>
    cases h
    exact .unknownOpcode hb (List.getElem?_eq_none_iff.mp hop)
  · next hop =>
    rcases hi : Frame.readByte ⟨f.chunk, f.next + 1, f.start⟩ with ⟨e₂ | a, f₂⟩ <;> rw [hi] at h
    · obtain ⟨hs, rfl, -⟩ := readByte_error hi hn₁
      cases h
      exact truncated_tells m hb hop (Nat.lt_succ_of_le (Nat.le_of_eq hs.symm))
    · obtain ⟨ha, rfl⟩ := readByte_ok hi
      have ho : f.chunk.operandBytes? f.next 1 = some [a] := by
        simp [Chunk.operandBytes?, List.range_succ, ha]
      have hv : Chunk.operandValue [a] = a.toNat := by simp [Chunk.operandValue]
      obtain ⟨hl, -⟩ := Prod.mk.inj h
      exact readLoad_tells m hb hop ho (by rwa [hv])
  · next hop =>
    rcases hi : Frame.readLong ⟨f.chunk, f.next + 1, f.start⟩ with ⟨e₂ | index, f₂⟩ <;>
      rw [hi] at h
    · obtain ⟨hs, rfl⟩ := readLong_error hi hn₁
      cases h
      exact truncated_tells m hb hop hs
    · obtain ⟨a, b, c, ha, hb', hc, rfl, rfl⟩ := readLong_ok hi
      have ho : f.chunk.operandBytes? f.next 3 = some [a, b, c] := by
        simp [Chunk.operandBytes?, List.range_succ, ha, hb', hc]
      obtain ⟨hl, -⟩ := Prod.mk.inj h
      exact readLoad_tells m hb hop ho hl
  · cases h

end Frame

namespace Machine

variable {m : Machine} {f : Frame} {e : Fault}

theorem replace_ne_error {n : Nat} (hn : 0 < n) (hle : n ≤ m.values.length) (v : Value)
    (heap : Heap) : replace { m with heap := heap } n v ≠ .error e := by
  obtain ⟨t, ht, -⟩ := replace_of_le (m := { m with heap := heap }) hn hle v
  rw [ht]
  exact nofun

theorem push_tells {v : Value} (h : m.push v = .error e) : e.Tells f m := by
  by_cases hlt : m.values.length < m.stack.capacity
  · obtain ⟨t, ht, -⟩ := push_of_lt hlt v
    rw [ht] at h
    cases h
  · have hle := m.length_values_le
    rw [push_of_full hlt] at h
    cases h
    rw [length_values] at hlt hle
    exact .overflow (by omega)

theorem operands_tells {g : Value × Value → Except Fault Machine}
    (hu : m.stack.top < 2 → Fault.Tells f m (.stack (.underflow 2 m.stack.top)))
    (hg : ∀ v w, m.operands = .ok (v, w) → 2 ≤ m.values.length → g (v, w) = .error e →
      e.Tells f m)
    (h : (m.operands >>= g) = .error e) : e.Tells f m := by
  rcases m.values_cases with hs | ⟨left, right, rest, hv⟩
  · rw [operands_of_short hs] at h
    cases h
    rw [length_values] at hs ⊢
    exact hu hs
  · have ho := operands_of_values hv
    rw [ho] at h
    exact hg left right ho (by simp [hv]) h

theorem peek_tells {g : Value → Except Fault Machine}
    (hu : m.stack.top < 1 → Fault.Tells f m (.stack (.underflow 1 m.stack.top)))
    (hg : ∀ v, m.peek 0 = .ok v → 1 ≤ m.values.length → g v = .error e → e.Tells f m)
    (h : (m.peek 0 >>= g) = .error e) : e.Tells f m := by
  by_cases hlt : 0 < m.values.length
  · have hp : m.peek 0 = .ok m.values[0] := peek_of_lt (List.getElem?_eq_getElem hlt)
    rw [hp] at h
    exact hg _ hp hlt h
  · rw [peek_of_short (Nat.le_of_not_lt hlt)] at h
    cases h
    rw [length_values] at hlt ⊢
    exact hu (by omega)

theorem ensureDepth_tells {g : Unit → Except Fault Machine}
    (hu : m.stack.top < 1 → Fault.Tells f m (.stack (.underflow 1 m.stack.top)))
    (hg : 1 ≤ m.values.length → g () ≠ .error e)
    (h : (m.ensureDepth 1 >>= g) = .error e) : e.Tells f m := by
  by_cases hle : 1 ≤ m.values.length
  · rw [ensureDepth_of_le hle] at h
    exact absurd h (hg hle)
  · rw [ensureDepth_of_short (Nat.lt_of_not_le hle)] at h
    cases h
    rw [length_values] at hle ⊢
    exact hu (by omega)

section
variable (hu : m.stack.top < 2 → Fault.Tells f m (.stack (.underflow 2 m.stack.top)))
include hu

theorem numeric_tells {op : NumericOp} (h : m.numeric op = .error e) : e.Tells f m := by
  refine operands_tells hu (fun v w ho hle h => ?_) h
  cases v <;> cases w <;> try (cases h; exact .notNumbers ho)
  next x y =>
    by_cases hz : op = .divide ∧ (y == 0) = true
    · simp only [hz, and_self, if_true] at h
      cases h
      exact .divisionByZero ho hz.2
    · simp only [hz, if_false] at h
      exact absurd h (replace_ne_error (by decide) hle _ m.heap)

theorem add_tells (h : m.add = .error e) : e.Tells f m := by
  refine operands_tells hu (fun v w ho hle h => ?_) h
  cases v <;> cases w <;> try (cases h; exact .notNumbersNorStrings ho)
  · exact numeric_tells hu h
  next i j =>
    replace h : m.concatenate = .error e := h
    rw [concatenate, ho] at h
    simp only [bind, Except.bind] at h
    cases hi : m.heap.get? i with
    | none =>
      simp only [hi] at h
      cases h
      exact .danglingString ho (.inl hi)
    | some s =>
      cases hj : m.heap.get? j with
      | none =>
        simp only [hi, hj] at h
        cases h
        exact .danglingString ho (.inr hj)
      | some t =>
        simp only [hi, hj] at h
        exact absurd h (replace_ne_error (by decide) hle _ _)

theorem equal_tells (h : m.equal = .error e) : e.Tells f m :=
  operands_tells hu (fun _ _ _ hle h => absurd h (replace_ne_error (by decide) hle _ m.heap)) h

end

section
variable (hu : m.stack.top < 1 → Fault.Tells f m (.stack (.underflow 1 m.stack.top)))
include hu

theorem negate_tells (h : m.negate = .error e) : e.Tells f m := by
  refine peek_tells hu (fun v hp hle h => ?_) h
  cases v with
  | number x => exact absurd h (replace_ne_error (by decide) hle _ m.heap)
  | _ => cases h; exact .notNumber hp

theorem not_tells (h : m.not = .error e) : e.Tells f m :=
  peek_tells hu (fun _ _ hle h => absurd h (replace_ne_error (by decide) hle _ m.heap)) h

theorem discard_tells (h : m.discard = .error e) : e.Tells f m :=
  ensureDepth_tells hu (fun _ h => by cases h) h

theorem printTop_tells (h : m.printTop = .error e) : e.Tells f m := by
  refine ensureDepth_tells hu (fun hle => ?_) h
  have hp : m.peek 0 = .ok m.values[0] := peek_of_lt (List.getElem?_eq_getElem hle)
  rw [hp]
  exact nofun

end

variable {m' : Machine} {g : Frame}

theorem execute_tells {op : Opcode} (hi : f.readInstruction = (.ok (.op op), g))
    (h : m.execute g op = .failed e m') : e.Tells f m := by
  obtain ⟨-, -, -, -, hp⟩ := Frame.readInstruction_ok hi
  cases op with
  | halt => cases h
  | constant | constantLong => cases hp
  | nil | yes | no => exact push_tells (Step.ofResult_failed h).1
  | pop => exact discard_tells (.underflow hi) (Step.ofResult_failed h).1
  | print => exact printTop_tells (.underflow hi) (Step.ofResult_failed h).1
  | equal => exact equal_tells (.underflow hi) (Step.ofResult_failed h).1
  | greater | less | subtract | multiply | divide =>
    exact numeric_tells (.underflow hi) (Step.ofResult_failed h).1
  | add => exact add_tells (.underflow hi) (Step.ofResult_failed h).1
  | not => exact not_tells (.underflow hi) (Step.ofResult_failed h).1
  | negate => exact negate_tells (.underflow hi) (Step.ofResult_failed h).1

theorem dispatch_tells (hn : f.next ≤ f.chunk.code.size) (h : m.dispatch f = .failed e m') :
    e.Tells f m := by
  have hd := h
  rw [dispatch_eq] at hd
  rcases hi : f.readInstruction with ⟨e' | i, g⟩ <;> rw [hi] at hd
  · cases hd
    exact Frame.readInstruction_error hi hn m
  · cases i with
    | op code => exact execute_tells hi hd
    | load k =>
      cases k with
      | number x => exact push_tells (Step.ofResult_failed hd).1
      | text s =>
        obtain ⟨rfl, hfull, -⟩ := dispatch_loads_failed ⟨g, hi⟩ h
        exact .overflow (by rw [← length_values, hfull])

theorem perform_halted {i : Instruction} (hp : i.Plain) (h : m.perform f i = .halted m') :
    i = .op .halt := by
  rcases perform_cases hp m f with ⟨hi, -⟩ | ⟨n, r, hc, -⟩
  · exact hi
  · rw [hc] at h
    cases r <;> cases h

theorem perform_next {i : Instruction} (hp : i.Plain) (h : m.perform f i = .next g m') :
    g = f := by
  rcases perform_cases hp m f with ⟨-, hc⟩ | ⟨n, r, hc, -⟩ <;> rw [hc] at h
  · cases h
  · cases r <;> cases h
    rfl

theorem dispatch_halted_iff :
    (∃ m', m.dispatch f = .halted m') ↔ f.chunk.code[f.next]? = some Opcode.halt.toByte := by
  constructor
  · rintro ⟨m', h⟩
    rw [dispatch_eq] at h
    rcases hi : f.readInstruction with ⟨e | i, g⟩ <;> rw [hi] at h
    · cases h
    · obtain ⟨byte, op, operand, hb, hop, -, -, -, hc⟩ := Frame.readInstruction_bytes hi
      obtain ⟨-, -, -, -, hp⟩ := Frame.readInstruction_ok hi
      obtain rfl := perform_halted hp h
      rcases hc with ⟨ho, -⟩ | ⟨k, -, hk⟩
      · cases ho
        rw [hb, Opcode.toByte_of_ofByte? hop]
      · cases hk
  · intro h
    refine ⟨m, ?_⟩
    rw [dispatch, Frame.readByte_of_code h]
    rfl

theorem dispatch_next (h : m.dispatch f = .next g m') :
    (∃ i, f.readInstruction = (.ok i, g) ∧ i.takes ≤ m.stack.top) ∧
      m'.settings = m.settings := by
  rw [dispatch_eq] at h
  rcases hi : f.readInstruction with ⟨e | i, g'⟩ <;> rw [hi] at h
  · cases h
  · obtain ⟨-, -, -, -, hp⟩ := Frame.readInstruction_ok hi
    have hl := m.leaves_perform g' i
    simp only at h
    rw [h] at hl
    obtain rfl := perform_next hp h
    obtain ⟨ht, -, hs, -⟩ := hl
    exact ⟨⟨i, rfl, ht⟩, hs⟩

/-- The instruction that begins at a frame reads and takes what is there and nothing else:
bytes of the code, one of the opcodes, a constant of the pool, values on the stack. -/
structure SafeAt (m : Machine) (f : Frame) : Prop where
  begins : f.start = f.next
  reads : match f.readInstruction with
    | (.ok _, g) => f.chunk.WholeAt f.next ∧ f.next < g.next ∧ g.next ≤ f.chunk.code.size
    | (.error e, _) => m.dispatch f = .failed e m
  takes : ∀ g m', m.dispatch f = .next g m' →
    ∃ i, f.readInstruction = (.ok i, g) ∧ i.takes ≤ m.stack.top
  slots : m.stack.top ≤ m.stack.capacity
  /-- No value is popped from an empty stack. -/
  pops : ∀ r m', (Action.dispatch f).run m ≠ .error (.refusal r) m'
  fails : ∀ e m', m.dispatch f = .failed e m' → e.Tells f m

theorem safeAt (m : Machine) (hb : f.start = f.next) (hn : f.next ≤ f.chunk.code.size) :
    m.SafeAt f where
  begins := hb
  reads := by
    obtain ⟨c, offset, start⟩ := f
    obtain rfl : start = offset := hb
    rcases hi : Frame.readInstruction ⟨c, start, start⟩ with ⟨e | i, g⟩
    · rw [dispatch_eq, hi]
    · obtain ⟨-, -, hlt, hle, -⟩ := Frame.readInstruction_ok hi
      exact ⟨(Chunk.wholeAt_of_read hi).1, hlt, hle⟩
  takes _ _ h := (dispatch_next h).1
  slots := Nat.le_trans m.stack.top_le m.stack.used_le
  pops r m' h := by
    rw [Action.dispatch_eq] at h
    cases hd : m.dispatch f <;> rw [hd] at h <;> cases h
  fails _ _ h := dispatch_tells hn h

end Machine

end ExprMachine
