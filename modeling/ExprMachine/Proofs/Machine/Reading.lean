import ExprMachine.Machine.Run
import ExprMachine.Proofs.Chunk.Decoding

/-! A machine that executes an instruction reads the whole of it first. -/

namespace ExprMachine

namespace Frame

theorem readByte_ok {f g : Frame} {b : UInt8} (h : f.readByte = (.ok b, g)) :
    f.chunk.code[f.next]? = some b ∧ g = ⟨f.chunk, f.next + 1, f.start⟩ := by
  unfold readByte at h
  split at h
  · next b' hb =>
    cases h
    exact ⟨hb, rfl⟩
  · cases h

theorem readLong_ok {f g : Frame} {index : Nat} (h : f.readLong = (.ok index, g)) :
    ∃ a b c, f.chunk.code[f.next]? = some a ∧ f.chunk.code[f.next + 1]? = some b ∧
      f.chunk.code[f.next + 2]? = some c ∧ index = Chunk.operandValue [a, b, c] ∧
      g = ⟨f.chunk, f.next + 3, f.start⟩ := by
  unfold readLong at h
  rcases h₁ : f.readByte with ⟨_ | a, f₁⟩ <;> rw [h₁] at h
  · cases h
  rcases h₂ : f₁.readByte with ⟨_ | b, f₂⟩ <;> simp only [h₂] at h
  · cases h
  rcases h₃ : f₂.readByte with ⟨_ | c, f₃⟩ <;> simp only [h₃] at h
  · cases h
  obtain ⟨ha, rfl⟩ := readByte_ok h₁
  obtain ⟨hb, rfl⟩ := readByte_ok h₂
  obtain ⟨hc, rfl⟩ := readByte_ok h₃
  cases h
  refine ⟨a, b, c, ha, hb, hc, ?_, rfl⟩
  simp only [Chunk.operandValue, List.foldl_cons, List.foldl_nil]
  omega

theorem readLoad_ok {f : Frame} {index : Nat} {i : Instruction}
    (h : f.readLoad (.ok index) = .ok i) :
    ∃ k, f.chunk.constants[index]? = some k ∧ i = .load k := by
  rw [readLoad, constant] at h
  cases hk : f.chunk.constants[index]? with
  | none => rw [hk] at h; cases h
  | some k => rw [hk] at h; cases h; exact ⟨k, rfl, rfl⟩

theorem readInstruction_bytes {f g : Frame} {i : Instruction}
    (h : f.readInstruction = (.ok i, g)) :
    ∃ byte op operand, f.chunk.code[f.next]? = some byte ∧ Opcode.ofByte? byte = some op ∧
      f.chunk.operandBytes? f.next op.operandWidth = some operand ∧
      g = ⟨f.chunk, f.next + 1 + op.operandWidth, f.start⟩ ∧ g.next ≤ f.chunk.code.size ∧
      (i = .op op ∧ op.operandWidth = 0 ∨
        ∃ k, f.chunk.constants[Chunk.operandValue operand]? = some k ∧ i = .load k) := by
  have hlt {n : Nat} {b : UInt8} (hb : f.chunk.code[n]? = some b) : n < f.chunk.code.size :=
    (Array.getElem?_eq_some_iff.mp hb).1
  unfold readInstruction at h
  rcases hr : f.readByte with ⟨_ | byte, f₁⟩ <;> rw [hr] at h
  · cases h
  obtain ⟨hb, rfl⟩ := readByte_ok hr
  simp only at h
  split at h
  · cases h
  · next hop =>
    rcases hi : Frame.readByte ⟨f.chunk, f.next + 1, f.start⟩ with ⟨_ | a, f₂⟩ <;>
      rw [hi] at h
    · cases h
    obtain ⟨ha, rfl⟩ := readByte_ok hi
    obtain ⟨hl, rfl⟩ := Prod.mk.inj h
    obtain ⟨k, hk, rfl⟩ := readLoad_ok hl
    refine ⟨byte, .constant, [a], hb, hop, ?_, rfl, hlt ha, .inr ⟨k, ?_, rfl⟩⟩
    · simp [Chunk.operandBytes?, Opcode.operandWidth, List.range_succ, ha]
    · simpa [Chunk.operandValue] using hk
  · next hop =>
    rcases hi : Frame.readLong ⟨f.chunk, f.next + 1, f.start⟩ with ⟨_ | index, f₂⟩ <;>
      rw [hi] at h
    · cases h
    obtain ⟨a, b, c, ha, hb', hc, rfl, rfl⟩ := readLong_ok hi
    obtain ⟨hl, rfl⟩ := Prod.mk.inj h
    obtain ⟨k, hk, rfl⟩ := readLoad_ok hl
    refine ⟨byte, .constantLong, [a, b, c], hb, hop, ?_, rfl, hlt hc, .inr ⟨k, hk, rfl⟩⟩
    simp [Chunk.operandBytes?, Opcode.operandWidth, List.range_succ, ha, hb', hc]
  · next _ op hc hcl hop =>
    have hw : op.operandWidth = 0 := by
      cases op <;> first | rfl | exact absurd rfl hc | exact absurd rfl hcl
    cases h
    refine ⟨byte, op, [], hb, hop, ?_, ?_, hlt hb, .inl ⟨rfl, hw⟩⟩
    · rw [hw]
      rfl
    · rw [hw]

theorem readInstruction_ok {f g : Frame} {i : Instruction}
    (h : f.readInstruction = (.ok i, g)) :
    g.chunk = f.chunk ∧ g.start = f.start ∧ f.next < g.next ∧
      g.next ≤ f.chunk.code.size ∧ i.Plain := by
  obtain ⟨byte, op, operand, -, -, -, rfl, hle, hi⟩ := readInstruction_bytes h
  refine ⟨rfl, rfl, by dsimp only; omega, hle, ?_⟩
  rcases hi with ⟨rfl, hw⟩ | ⟨k, -, rfl⟩
  · exact hw
  · trivial

end Frame

namespace Machine

def perform (m : Machine) (f : Frame) : Instruction → Step
  | .load (.number bits) => .ofResult f m (m.push (.number (Float.ofBits bits)))
  | .load (.text s) =>
    let (heap, id) := m.heap.intern s
    let m := { m with heap := heap }
    .ofResult f m (m.push (.string id))
  | .op code => m.execute f code

theorem load_eq (m : Machine) (f : Frame) (index : Except Fault Nat) :
    m.load f index = match f.readLoad index with
      | .error e => .failed e m
      | .ok i => m.perform f i := by
  cases index with
  | error e => rfl
  | ok index =>
    simp only [load, Frame.readLoad]
    cases f.constant index with
    | error e => rfl
    | ok k => cases k <;> rfl

theorem dispatch_eq (m : Machine) (f : Frame) :
    m.dispatch f = match f.readInstruction with
      | (.error e, _) => .failed e m
      | (.ok i, f) => m.perform f i := by
  unfold dispatch Frame.readInstruction
  rcases f.readByte with ⟨_ | b, f⟩
  · rfl
  simp only
  cases hb : Opcode.ofByte? b with
  | none => rfl
  | some op =>
    cases op with
    | constant =>
      rcases hr : f.readByte with ⟨r, g⟩
      simp only [execute, hr, load_eq]
      cases g.readLoad (r.map UInt8.toNat) <;> rfl
    | constantLong =>
      rcases hr : f.readLong with ⟨r, g⟩
      simp only [execute, hr, load_eq]
      cases g.readLoad r <;> rfl
    | _ => rfl

end Machine

end ExprMachine
