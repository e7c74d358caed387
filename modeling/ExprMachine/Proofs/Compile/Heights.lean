import ExprMachine.Proofs.Compile.Postorder
import ExprMachine.Proofs.Content.Emitted

/-! How high the stack is before each instruction. This is known before the code runs, and a
stack that is high enough leaves only faults that depend on the values. -/

namespace ExprMachine

def Instruction.takes : Instruction → Nat
  | .op .pop | .op .print | .op .not | .op .negate => 1
  | .op .equal | .op .greater | .op .less => 2
  | .op .add | .op .subtract | .op .multiply | .op .divide => 2
  | _ => 0

def Instruction.gives : Instruction → Nat
  | .op .halt | .op .pop | .op .print => 0
  | _ => 1

/-- The height of the stack after instructions, if it is high enough for each of them. -/
def heightAfter? : List Emission → Nat → Option Nat
  | [], height => some height
  | e :: rest, height =>
    if e.instruction.takes ≤ height then
      heightAfter? rest (height - e.instruction.takes + e.instruction.gives)
    else none

theorem heightAfter?_append (es rest : List Emission) (height : Nat) :
    heightAfter? (es ++ rest) height = (heightAfter? es height).bind (heightAfter? rest) := by
  induction es generalizing height with
  | nil => rfl
  | cons e es ih =>
    simp only [List.cons_append, heightAfter?]
    split
    · exact ih _
    · rfl

/-- An expression leaves one value above those that were there. -/
theorem Expr.heightAfter?_postorder (e : Expr) (height : Nat) :
    heightAfter? e.postorder height = some (height + 1) := by
  induction e generalizing height with
  | literal v line =>
    cases v with
    | boolean b => cases b <;> rfl
    | nil | number | text => rfl
  | group inner ih => exact ih height
  | unary op line operand ih =>
    rw [postorder_unary, heightAfter?_append, ih]
    cases op <;>
      simp [UnaryOp.opcode, heightAfter?, Instruction.takes, Instruction.gives]
  | binary op line left right ihl ihr =>
    cases op <;>
      simp [postorder, heightAfter?_append, ihl, ihr, BinaryOp.code, heightAfter?,
        Instruction.takes, Instruction.gives]

theorem Stmt.heightAfter?_postorder (s : Stmt) (height : Nat) :
    heightAfter? s.postorder height = some height := by
  rw [postorder, heightAfter?_append, Expr.heightAfter?_postorder]
  cases s.printed <;> simp [heightAfter?, Instruction.takes, Instruction.gives]

/-- The faults that depend on the values and on the capacity, and not on the code alone. -/
inductive Fault.OfValues (capacity : Nat) : Fault → Prop
  | overflow : OfValues capacity (.stack (.overflow capacity))
  | notNumbersNorStrings (left right : ValueType) :
    OfValues capacity (.notNumbersNorStrings left right)
  | notNumbers (op : NumericOp) (left right : ValueType) :
    OfValues capacity (.notNumbers op left right)
  | notNumber (found : ValueType) : OfValues capacity (.notNumber found)
  | divisionByZero : OfValues capacity .divisionByZero

namespace Datum

theorem fault_of_calculate {op : NumericOp} {a b : Datum} {e : Fault} (capacity : Nat)
    (h : calculate op a b = .error e) : e.OfValues capacity := by
  unfold calculate at h
  split at h
  · cases op <;> simp only at h <;> try cases h
    split at h <;> cases h
    exact .divisionByZero
  · cases h
    exact .notNumbers _ _ _

theorem fault_of_add {a b : Datum} {e : Fault} (capacity : Nat) (h : add a b = .error e) :
    e.OfValues capacity := by
  unfold add at h
  split at h <;> cases h
  exact .notNumbersNorStrings _ _

theorem fault_of_negate {a : Datum} {e : Fault} (capacity : Nat) (h : negate a = .error e) :
    e.OfValues capacity := by
  unfold negate at h
  split at h <;> cases h
  exact .notNumber _

end Datum

namespace ContentMachine

def Leaves (m : ContentMachine) (height : Nat) : Except Fault ContentMachine → Prop
  | .ok m' => m'.capacity = m.capacity ∧ m'.stack.length = height
  | .error e => e.OfValues m.capacity

variable {m : ContentMachine}

theorem leaves_push (v : Datum) : m.Leaves (m.stack.length + 1) (m.push v) := by
  by_cases h : m.stack.length < m.capacity
  · rw [push, if_pos h]
    exact ⟨rfl, rfl⟩
  · rw [push, if_neg h]
    exact .overflow

theorem leaves_withTop {f : Datum → List Datum → Except Fault ContentMachine} {given : Nat}
    (ht : 1 ≤ m.stack.length) (hf : ∀ v rest, m.Leaves (rest.length + given) (f v rest)) :
    m.Leaves (m.stack.length - 1 + given) (m.withTop f) := by
  rcases hs : m.stack with _ | ⟨v, rest⟩
  · rw [hs] at ht
    cases ht
  · simp only [withTop, hs]
    exact hf v rest

theorem leaves_unary {f : Datum → Except Fault Datum} (ht : 1 ≤ m.stack.length)
    (hf : ∀ a e, f a = .error e → e.OfValues m.capacity) :
    m.Leaves (m.stack.length - 1 + 1) (m.unary f) := by
  refine leaves_withTop ht fun v rest => ?_
  cases hv : f v with
  | ok r => exact ⟨rfl, rfl⟩
  | error e => exact hf v e hv

theorem leaves_binary {f : Datum → Datum → Except Fault Datum} (ht : 2 ≤ m.stack.length)
    (hf : ∀ a b e, f a b = .error e → e.OfValues m.capacity) :
    m.Leaves (m.stack.length - 2 + 1) (m.binary f) := by
  rcases hs : m.stack with _ | ⟨right, _ | ⟨left, rest⟩⟩
  · rw [hs] at ht
    cases ht
  · rw [hs] at ht
    simp at ht
  · simp only [binary, hs]
    cases hv : f left right with
    | ok r => exact ⟨rfl, rfl⟩
    | error e => exact hf left right e hv

theorem leaves_execute {i : Instruction} (hp : i.Plain) (hh : i ≠ .op .halt)
    (ht : i.takes ≤ m.stack.length) :
    m.Leaves (m.stack.length - i.takes + i.gives) (m.execute i) := by
  cases i with
  | load k => cases k <;> exact leaves_push _
  | op code =>
    cases code with
    | halt => exact absurd rfl hh
    | constant | constantLong => cases hp
    | nil | yes | no => exact leaves_push _
    | pop | print => exact leaves_withTop ht fun _ _ => ⟨rfl, rfl⟩
    | equal => exact leaves_binary ht fun _ _ _ h => nomatch h
    | greater | less | subtract | multiply | divide =>
      exact leaves_binary ht fun _ _ _ h => Datum.fault_of_calculate _ h
    | add => exact leaves_binary ht fun _ _ _ h => Datum.fault_of_add _ h
    | not => exact leaves_unary ht fun _ _ h => nomatch h
    | negate => exact leaves_unary ht fun _ _ h => Datum.fault_of_negate _ h

/-- A run of instructions ends at the height that was found for them. -/
theorem runAll_height {es : List Emission} {height : Nat}
    (hp : ∀ e ∈ es, e.instruction.Plain) (hh : ∀ e ∈ es, e.instruction ≠ .op .halt)
    (ht : heightAfter? es m.stack.length = some height) :
    (∃ m', runAll es m = (.halted, m') ∧ m'.capacity = m.capacity ∧
      m'.stack.length = height) ∨
    ∃ e m', runAll es m = (.failed e, m') ∧ e.fault.OfValues m.capacity := by
  induction es generalizing m with
  | nil => exact .inl ⟨m, rfl, rfl, Option.some.inj ht⟩
  | cons e es ih =>
    rw [heightAfter?] at ht
    by_cases hle : e.instruction.takes ≤ m.stack.length
    · rw [if_pos hle] at ht
      have hx := leaves_execute (hp e (by simp)) (hh e (by simp)) hle
      rw [runAll_cons (hh e (by simp))]
      cases hr : m.execute e.instruction with
      | ok m' =>
        rw [hr] at hx
        obtain ⟨hc, hl⟩ := hx
        rw [← hl] at ht
        have hi := ih (fun e h => hp e (by simp [h])) (fun e h => hh e (by simp [h])) ht
        rwa [hc] at hi
      | error fault =>
        rw [hr] at hx
        exact .inr ⟨⟨e.line, fault⟩, m, rfl, hx⟩
    · rw [if_neg hle] at ht
      cases ht

end ContentMachine

end ExprMachine
