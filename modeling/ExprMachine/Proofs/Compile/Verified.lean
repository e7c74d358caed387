import ExprMachine.Chunk.Listing
import ExprMachine.Proofs.Compile.Acceptance
import ExprMachine.Proofs.Compile.Heights
import ExprMachine.Proofs.Content.Simulation

/-! Code that a machine can run without looking at it first. All compiled code is such. -/

namespace ExprMachine

namespace Chunk

/-- A whole instruction with a known opcode starts at the offset, and the constant that it
loads is in the pool. -/
def WholeAt (c : Chunk) (offset : Nat) : Prop :=
  ∃ byte op operand, c.code[offset]? = some byte ∧ Opcode.ofByte? byte = some op ∧
    c.operandBytes? offset op.operandWidth = some operand ∧
    (op.operandWidth ≠ 0 → operandValue operand < c.constants.size)

theorem wholeAt_of_read {c : Chunk} {offset : Nat} {i : Instruction} {g : Frame}
    (h : (Frame.mk c offset offset).readInstruction = (.ok i, g)) :
    c.WholeAt offset ∧
      ∃ byte, c.code[offset]? = some byte ∧ g.next = offset + instructionSize byte := by
  obtain ⟨byte, op, operand, hb, hop, ho, rfl, -, hi⟩ := Frame.readInstruction_bytes h
  refine ⟨⟨byte, op, operand, hb, hop, ho, fun hw => ?_⟩, byte, hb, ?_⟩
  · rcases hi with ⟨-, hw'⟩ | ⟨k, hk, -⟩
    · exact absurd hw' hw
    · exact (Array.getElem?_eq_some_iff.mp hk).1
  · simp only [instructionSize, hop]
    omega

theorem wholeAt_of_decodes {c : Chunk} {offset : Nat} {es : List Emission}
    (h : Decodes c offset es) : ∀ o ∈ c.offsetsFrom offset, c.WholeAt o := by
  induction h with
  | done =>
    intro o ho
    rw [offsetsFrom, dif_neg (Nat.lt_irrefl _)] at ho
    cases ho
  | next hi _ _ _ ih =>
    intro o ho
    obtain ⟨hw, byte, hb, hn⟩ := wholeAt_of_read hi
    obtain ⟨hlt, rfl⟩ := Array.getElem?_eq_some_iff.mp hb
    rw [offsetsFrom, dif_pos hlt] at ho
    rcases List.mem_cons.mp ho with rfl | ho
    · exact hw
    · exact ih o (by rwa [← hn] at ho)

/-- Code in blocks, one for each statement, that a machine need not check. -/
structure Verified (c : Chunk) (blocks : List (List Emission)) (last : Nat) : Prop where
  decodes : Decodes c 0 (blocks.flatten ++ [⟨.op .halt, last⟩])
  whole : ∀ o ∈ c.offsetsFrom 0, c.WholeAt o
  returnsOnce : ∀ block ∈ blocks, ∀ e ∈ block, e.instruction ≠ .op .halt
  heights : ∀ block ∈ blocks, heightAfter? block 0 = some 0
  lines : c.lines.byteLines.length = c.code.size

variable {c : Chunk} {blocks : List (List Emission)} {last : Nat}

theorem plain_of_decodes {offset : Nat} {es : List Emission} (h : Decodes c offset es) :
    ∀ e ∈ es, e.instruction.Plain := by
  induction h with
  | done => simp
  | next hi _ _ _ ih =>
    obtain ⟨-, -, -, -, hp⟩ := Frame.readInstruction_ok hi
    exact List.forall_mem_cons.mpr ⟨hp, ih⟩

theorem Verified.height (h : c.Verified blocks last) :
    heightAfter? blocks.flatten 0 = some 0 := by
  have hb := h.heights
  clear h
  induction blocks with
  | nil => rfl
  | cons block blocks ih =>
    rw [List.flatten_cons, heightAfter?_append, hb block (by simp)]
    exact ih fun b h => hb b (by simp [h])

/-- Verified code comes to its end with an empty stack, whatever the capacity, unless the
values or the capacity stop it. -/
theorem Verified.run (h : c.Verified blocks last) (hw : c.code.size < Word.size)
    (trace : Bool) (capacity : Nat) :
    (∃ m, ContentMachine.run trace capacity c = (.halted, m) ∧ m.stack = []) ∨
      ∃ e m, ContentMachine.run trace capacity c = (.failed e, m) ∧
        e.fault.OfValues capacity := by
  have hhalt : ∀ e ∈ blocks.flatten, e.instruction ≠ .op .halt := by
    intro e he
    obtain ⟨block, hb, heb⟩ := List.mem_flatten.mp he
    exact h.returnsOnce block hb e heb
  have hplain : ∀ e ∈ blocks.flatten, e.instruction.Plain := fun e he =>
    plain_of_decodes h.decodes e (List.mem_append_left _ he)
  have hrun := ContentMachine.runFrom_of_decodes h.decodes
    ⟨⟨.op .halt, last⟩, by simp, rfl⟩ h.lines hw trace 0 ⟨capacity, [], []⟩
  rw [ContentMachine.runAll_append hhalt] at hrun
  rw [ContentMachine.run, Frame.ofChunk, hrun]
  rcases ContentMachine.runAll_height (m := ⟨capacity, [], []⟩) hplain hhalt h.height with
    ⟨m, hm, -, hl⟩ | ⟨e, m, hm, he⟩
  · rw [hm]
    exact .inl ⟨m, rfl, List.length_eq_zero_iff.mp hl⟩
  · rw [hm]
    exact .inr ⟨e, m, rfl, he⟩

theorem Verified.interpretChunk (h : c.Verified blocks last) (hw : c.code.size < Word.size)
    {m : Machine} (hm : m.tornDown = false) :
    ((m.interpretChunk c).1 = .ok .ok ∧ (m.interpretChunk c).2.stack.toList = []) ∨
      ∃ e, (m.interpretChunk c).1 = .ok (.runtimeError e) ∧
        e.fault.OfValues m.stack.capacity := by
  obtain ⟨hv, hs⟩ := Machine.interpretChunk_shows hm c
  rcases h.run hw m.settings.trace m.stack.capacity with ⟨s, hr, hl⟩ | ⟨e, s, hr, he⟩
  · rw [hr] at hv hs
    have hst := hs.stack
    rw [hl, List.map_nil, List.map_eq_nil_iff, Machine.values, List.reverse_eq_nil_iff] at hst
    exact .inl ⟨hv, hst⟩
  · rw [hr] at hv
    exact .inr ⟨e, hv, he⟩

end Chunk

/-- All code that is compiled is verified, with a block for each statement. So a run of it
never runs out of code, opcodes, constants, values or strings, on a stack of any capacity. A
chunk has no more bytes than a word counts. -/
theorem compile_verified (source : String) (c : Chunk) (h : compile source = .ok c) :
    ∃ tokens ss, scan source = .ok tokens ∧ DerivesProgram tokens.tokens ss ∧
      c.Verified (ss.map Stmt.postorder) tokens.finish.line ∧
      (c.code.size < Word.size → c.lines.size = .ok c.code.size ∧
        ∀ m : Machine, m.tornDown = false →
          ((m.interpretChunk c).1 = .ok .ok ∧ (m.interpretChunk c).2.stack.toList = []) ∨
            ∃ e, (m.interpretChunk c).1 = .ok (.runtimeError e) ∧
              e.fault.OfValues m.stack.capacity) := by
  obtain ⟨tokens, ss, hs, hd, -, ha, hdec⟩ := compile_spec h
  have hv : c.Verified (ss.map Stmt.postorder) tokens.finish.line := by
    refine ⟨?_, c.wholeAt_of_decodes hdec, ?_, ?_, ha⟩
    · rwa [← List.flatMap_def]
    · intro block hb
      obtain ⟨s, -, rfl⟩ := List.mem_map.mp hb
      exact fun e he => (Stmt.postorder_inner he).2
    · intro block hb
      obtain ⟨s, -, rfl⟩ := List.mem_map.mp hb
      exact s.heightAfter?_postorder 0
  refine ⟨tokens, ss, hs, hd, hv, fun hw => ⟨?_, fun m hm => hv.interpretChunk hw hm⟩⟩
  rw [LineTable.size_eq (by rwa [hv.lines]), hv.lines]

theorem compile_verified_addition : ∃ c tokens, ∃ ss : List Stmt, ∃ m : Machine,
    compile "print \"a\" + 1;" = .ok c ∧ scan "print \"a\" + 1;" = .ok tokens ∧
    c.Verified (ss.map Stmt.postorder) tokens.finish.line ∧
    c.lines.size = .ok c.code.size ∧ m.stack.capacity = 0 ∧
    (((m.interpretChunk c).1 = .ok .ok ∧ (m.interpretChunk c).2.stack.toList = []) ∨
      ∃ e, (m.interpretChunk c).1 = .ok (.runtimeError e) ∧ e.fault.OfValues 0) := by
  have hcompile : ((compile "print \"a\" + 1;").toOption.map fun c =>
      decide (c.code.size < Word.size)) = some true := by decide +kernel
  obtain ⟨c, hc, hw⟩ := exists_ok_of_toOption hcompile
  obtain ⟨tokens, ss, hs, -, hv, hrun⟩ := compile_verified _ c hc
  obtain ⟨hl, hm⟩ := hrun (of_decide_eq_true hw)
  exact ⟨c, tokens, ss, Machine.new ⟨0, true, false⟩, hc, hs, hv, hl, rfl, hm _ rfl⟩

end ExprMachine
