import ExprMachine.Chunk.Emission
import ExprMachine.Machine.Frame
import ExprMachine.Proofs.Chunk.Pool

/-! Reading code back. What is written to a chunk is read from it again, instruction by
instruction, whatever is written later. -/

namespace ExprMachine

namespace Frame

def readLoad (f : Frame) (index : Except Fault Nat) : Except Fault Instruction :=
  match index with
  | .error e => .error e
  | .ok index => (f.constant index).map .load

def readInstruction (f : Frame) : Except Fault Instruction × Frame :=
  match f.readByte with
  | (.error e, f) => (.error e, f)
  | (.ok byte, f) =>
    match Opcode.ofByte? byte with
    | none => (.error (.unknownOpcode byte), f)
    | some .constant =>
      let (index, f) := f.readByte
      (f.readLoad (index.map UInt8.toNat), f)
    | some .constantLong =>
      let (index, f) := f.readLong
      (f.readLoad index, f)
    | some op => (.ok (.op op), f)

theorem readByte_of_code {f : Frame} {b : UInt8} (h : f.chunk.code[f.next]? = some b) :
    f.readByte = (.ok b, ⟨f.chunk, f.next + 1, f.start⟩) := by
  simp only [readByte, h]

theorem readLong_of_code {f : Frame} {a b c : UInt8} (ha : f.chunk.code[f.next]? = some a)
    (hb : f.chunk.code[f.next + 1]? = some b) (hc : f.chunk.code[f.next + 2]? = some c) :
    f.readLong = (.ok (a.toNat * 65536 + b.toNat * 256 + c.toNat),
      ⟨f.chunk, f.next + 3, f.start⟩) := by
  simp only [readLong, readByte, ha, hb, hc]

end Frame

/-- Instructions that come without an operand, and loads. -/
def Instruction.Plain : Instruction → Prop
  | op code => code.operandWidth = 0
  | load _ => True

/-- From the offset on the code is a sequence of whole instructions up to its end, and every
byte of an instruction has the line of the instruction. -/
inductive Decodes (c : Chunk) : Nat → List Emission → Prop
  | done : Decodes c c.code.size []
  | next {offset after line : Nat} {i : Instruction} {rest : List Emission} :
    (Frame.mk c offset offset).readInstruction = (.ok i, ⟨c, after, offset⟩) →
    offset < after →
    (∀ k, offset ≤ k → k < after → c.lines.byteLines[k]? = some line) →
      Decodes c after rest → Decodes c offset (⟨i, line⟩ :: rest)

theorem Decodes.unique {c : Chunk} {offset : Nat} {es es' : List Emission}
    (h : Decodes c offset es) (h' : Decodes c offset es') : es = es' := by
  have hend {i : Instruction} {g : Frame} :
      (Frame.mk c c.code.size c.code.size).readInstruction ≠ (.ok i, g) := by
    simp [Frame.readInstruction, Frame.readByte]
  induction h generalizing es' with
  | done =>
    generalize ho : c.code.size = offset at h'
    cases h' with
    | done => rfl
    | next hi =>
      subst ho
      exact absurd hi hend
  | @next offset after line i rest hi hlt hl _ ih =>
    cases h' with
    | done => exact absurd hi hend
    | @next _ after' line' i' rest' hi' hlt' hl' hr' =>
      rw [hi] at hi'
      obtain ⟨hi', hf⟩ := Prod.mk.inj hi'
      cases hi'
      cases hf
      have hline := hl offset (Nat.le_refl _) hlt
      rw [hl' offset (Nat.le_refl _) hlt] at hline
      cases hline
      rw [ih hr']

theorem loadBytes_index {index : Nat} (h : index ≤ Chunk.lastIndex) :
    (index >>> 16 % 256) * 65536 + (index >>> 8 % 256) * 256 + index % 256 = index := by
  simp only [Chunk.lastIndex] at h
  simp only [Nat.shiftRight_eq_div_pow]
  omega

namespace Chunk

/-- Every byte of the code has a line. -/
def Aligned (c : Chunk) : Prop := c.lines.byteLines.length = c.code.size

theorem aligned_empty : empty.Aligned := rfl

theorem Aligned.writeAll {c : Chunk} (h : c.Aligned) (bytes : List UInt8) (line : Nat) :
    (c.writeAll bytes line).Aligned := by
  have hc := congrArg List.length (c.code_writeAll bytes line)
  rw [Aligned, lines_writeAll, ← Array.length_toList, hc]
  simp only [List.length_append, List.length_replicate, Array.length_toList]
  rw [h]

theorem size_writeAll (c : Chunk) (bytes : List UInt8) (line : Nat) :
    (c.writeAll bytes line).code.size = c.code.size + bytes.length := by
  rw [← Array.length_toList, code_writeAll, List.length_append, Array.length_toList]

theorem code_of_writeAll {c d : Chunk} {bytes : List UInt8} {line k : Nat} {b : UInt8}
    (h : (c.writeAll bytes line).Extends d) (hk : bytes[k]? = some b) :
    d.code[c.code.size + k]? = some b := by
  apply h.code_at
  rw [← Array.getElem?_toList, code_writeAll, ← Array.length_toList,
    List.getElem?_append_right (Nat.le_add_right _ _), Nat.add_sub_cancel_left, hk]

theorem lines_of_writeAll {c d : Chunk} {bytes : List UInt8} {line k : Nat} (ha : c.Aligned)
    (h : (c.writeAll bytes line).Extends d) (hc : c.code.size ≤ k)
    (hk : k < c.code.size + bytes.length) : d.lines.byteLines[k]? = some line := by
  apply h.line_at
  rw [lines_writeAll, List.getElem?_append_right (by rw [ha]; exact hc), ha,
    List.getElem?_replicate_of_lt (by omega)]

theorem readInstruction_op {c later : Chunk} {code : Opcode} {line : Nat}
    (hp : (Instruction.op code).Plain) (h : (c.writeAll [code.toByte] line).Extends later) :
    (Frame.mk later c.code.size c.code.size).readInstruction =
      (.ok (.op code), ⟨later, c.code.size + 1, c.code.size⟩) := by
  have hb : later.code[c.code.size]? = some code.toByte :=
    code_of_writeAll h (show [code.toByte][0]? = _ from rfl)
  rw [Frame.readInstruction, Frame.readByte_of_code hb]
  simp only [Opcode.ofByte?_toByte]
  cases code <;> first | rfl | cases hp

theorem readInstruction_load {c later : Chunk} {k : Constant} {index line : Nat}
    (hk : c.constants[index]? = some k) (hi : index ≤ lastIndex)
    (h : (c.writeAll (loadBytes index) line).Extends later) :
    (Frame.mk later c.code.size c.code.size).readInstruction =
      (.ok (.load k), ⟨later, c.code.size + (loadBytes index).length, c.code.size⟩) := by
  have hk' := ((extends_writeAll c _ _).trans h).constant_at hk
  have hb {j : Nat} {b : UInt8} (hj : (loadBytes index)[j]? = some b) :
      later.code[c.code.size + j]? = some b := code_of_writeAll h hj
  unfold loadBytes at hb ⊢
  split at hb
  · next hs =>
    have h₀ := hb (j := 0) rfl
    have h₁ := hb (j := 1) rfl
    rw [if_pos hs, Frame.readInstruction, Frame.readByte_of_code h₀]
    simp only [Opcode.ofByte?_toByte]
    rw [Frame.readByte_of_code h₁]
    simp [Frame.readLoad, Except.map, Frame.constant, Nat.mod_eq_of_lt hs, hk']
  · next hs =>
    have h₀ := hb (j := 0) rfl
    have h₁ := hb (j := 1) rfl
    have h₂ := hb (j := 2) rfl
    have h₃ := hb (j := 3) rfl
    rw [if_neg hs, Frame.readInstruction, Frame.readByte_of_code h₀]
    simp only [Opcode.ofByte?_toByte]
    rw [Frame.readLong_of_code h₁ h₂ h₃]
    simp only [UInt8.toNat_ofNat']
    rw [loadBytes_index hi]
    simp [Frame.readLoad, Except.map, Frame.constant, hk']

/-- What one emission comes to: its bytes are written, and every later chunk reads the
instruction back from them. -/
theorem add?_spec {c d : Chunk} {e : Emission} (ha : c.Aligned) (hp : e.instruction.Plain)
    (h : c.add? e = some d) :
    c.Extends d ∧ d.Aligned ∧ c.code.size < d.code.size ∧ ∀ later, d.Extends later →
      (Frame.mk later c.code.size c.code.size).readInstruction =
        (.ok e.instruction, ⟨later, d.code.size, c.code.size⟩) ∧
      ∀ k, c.code.size ≤ k → k < d.code.size → later.lines.byteLines[k]? = some e.line := by
  obtain ⟨i, line⟩ := e
  cases i with
  | op code =>
    obtain rfl : c.writeAll [code.toByte] line = d := Option.some.inj h
    rw [size_writeAll]
    refine ⟨extends_writeAll _ _ _, ha.writeAll _ _, Nat.lt_succ_self _, ?_⟩
    intro later hl
    exact ⟨readInstruction_op hp hl, fun k hc hk => lines_of_writeAll ha hl hc hk⟩
  | load constant =>
    obtain ⟨c', index, hi⟩ : ∃ c' index, c.intern constant = (c', index) := ⟨_, _, rfl⟩
    obtain ⟨hx, hcode, hlines, hk⟩ := intern_spec hi
    simp only [add?, writeConstant, hi] at h
    split at h
    · next hfit hle =>
      split at hle
      · next hlast =>
        cases hle
        cases h
        have ha' : c'.Aligned := by rw [Aligned, hlines, hcode]; exact ha
        have hpos : 0 < (loadBytes index).length := by unfold loadBytes; split <;> simp
        rw [size_writeAll, ← hcode]
        refine ⟨hx.trans (extends_writeAll _ _ _), ha'.writeAll _ _, by omega, ?_⟩
        intro later hl
        exact ⟨readInstruction_load hk hlast hl, fun k hc hk => lines_of_writeAll ha' hl hc hk⟩
      · cases hle
    · cases h

theorem addAll?_spec {c d : Chunk} {es : List Emission} (ha : c.Aligned)
    (hp : ∀ e ∈ es, e.instruction.Plain) (h : c.addAll? es = some d) :
    c.Extends d ∧ d.Aligned ∧ Decodes d c.code.size es := by
  induction es generalizing c with
  | nil =>
    cases h
    exact ⟨.refl _, ha, .done⟩
  | cons e es ih =>
    rw [addAll?, List.foldlM_cons] at h
    obtain ⟨c', he, hes⟩ := Option.bind_eq_some_iff.mp h
    obtain ⟨hx, ha', hlt, hread⟩ := add?_spec ha (hp e (by simp)) he
    obtain ⟨hx', had, hd⟩ := ih ha' (fun e he => hp e (by simp [he])) hes
    obtain ⟨hi, hl⟩ := hread d hx'
    exact ⟨hx.trans hx', had, .next hi hlt hl hd⟩

end Chunk

def Instruction.constant? : Instruction → Option Constant
  | op _ => none
  | load constant => some constant

/-- Emissions fit into a chunk if there are no more constants than it can hold. -/
theorem Chunk.exists_addAll? {c : Chunk} {es : List Emission} {ks : List Constant}
    (hk : ks.length ≤ lastIndex + 1) (hc : c.PoolWithin ks)
    (he : ∀ e ∈ es, ∀ k ∈ e.instruction.constant?, k ∈ ks) : ∃ d, c.addAll? es = some d := by
  induction es generalizing c with
  | nil => exact ⟨c, rfl⟩
  | cons e es ih =>
    have hes := fun c' (hc' : PoolWithin c' ks) => ih hc' fun e h => he e (by simp [h])
    obtain ⟨i, line⟩ := e
    simp only [addAll?, List.foldlM_cons]
    cases i with
    | op code =>
      exact hes (c.writeOp code line) ⟨hc.nodup, hc.subset⟩
    | load constant =>
      obtain ⟨c', index, hi⟩ : ∃ c' index, c.intern constant = (c', index) := ⟨_, _, rfl⟩
      have hc' := hc.intern (he ⟨.load constant, line⟩ (by simp) constant rfl) hi
      obtain ⟨-, -, -, hk'⟩ := intern_spec hi
      obtain ⟨hlt, -⟩ := Array.getElem?_eq_some_iff.mp hk'
      have hle : index ≤ lastIndex := by have := hc'.size_le; omega
      have ha : c.add? ⟨.load constant, line⟩ = some (c'.writeAll (loadBytes index) line) := by
        simp only [add?, writeConstant, hi, if_pos hle]
      rw [ha]
      exact hes _ ⟨by rw [constants_writeAll]; exact hc'.nodup,
        by rw [constants_writeAll]; exact hc'.subset⟩

end ExprMachine
