import ExprMachine.Proofs.Calls
import ExprMachine.Proofs.Chunk.Decoding

/-! Chunks that are written call by call, in any order of the calls. What has been written stays,
and every byte has a line. -/

namespace ExprMachine

inductive ChunkCall where
  | write (byte : UInt8) (line : Nat)
  | writeOp (op : Opcode) (line : Nat)
  | writeConstant (k : Constant) (line : Nat)
  | intern (k : Constant)
  | append (k : Constant)

namespace Chunk

/-- The index that a call is answered with, if there is one, and the chunk after the call. -/
def answer (c : Chunk) : ChunkCall → Option Nat × Chunk
  | .write byte line => (none, c.write byte line)
  | .writeOp op line => (none, c.writeOp op line)
  | .writeConstant k line => ((c.writeConstant k line).2, (c.writeConstant k line).1)
  | .intern k => (some (c.intern k).2, (c.intern k).1)
  | .append k => (some (c.append k).2, (c.append k).1)

/-- The chunk that calls make of an empty one. -/
def written (calls : List ChunkCall) : Chunk := (Calls.run answer empty calls).2

theorem writeConstant_eq (c : Chunk) (k : Constant) (line : Nat) :
    c.writeConstant k line =
      if (c.intern k).2 ≤ lastIndex then
        ((c.intern k).1.writeAll (loadBytes (c.intern k).2) line, some (c.intern k).2)
      else ((c.intern k).1, none) := rfl

/-- What holds of a chunk and survives each byte that is written and each constant that is
added. -/
structure Lasting (p : Chunk → Prop) : Prop where
  write : ∀ c byte line, p c → p (c.write byte line)
  append : ∀ c k, p c → p (c.append k).1

namespace Lasting

variable {p : Chunk → Prop} {c : Chunk}

theorem writeAll (hp : Lasting p) (h : p c) (bytes : List UInt8) (line : Nat) :
    p (c.writeAll bytes line) := by
  induction bytes generalizing c with
  | nil => exact h
  | cons byte bytes ih => exact ih (hp.write c byte line h)

theorem intern (hp : Lasting p) (h : p c) (k : Constant) : p (c.intern k).1 := by
  unfold Chunk.intern
  split
  · exact h
  · exact hp.append c k h

theorem answer (hp : Lasting p) (h : p c) (call : ChunkCall) : p (c.answer call).2 := by
  cases call with
  | write byte line => exact hp.write c byte line h
  | writeOp op line => exact hp.write c op.toByte line h
  | writeConstant k line =>
    simp only [Chunk.answer, writeConstant_eq]
    split
    · exact hp.writeAll (hp.intern h k) _ _
    · exact hp.intern h k
  | intern k => exact hp.intern h k
  | append k => exact hp.append c k h

theorem run (hp : Lasting p) (h : p c) (calls : List ChunkCall) :
    p (Calls.run Chunk.answer c calls).2 :=
  Calls.run_keeps (p := p) (fun _ call hd => hp.answer hd call) h calls

end Lasting

theorem lasting_extends (c : Chunk) : Lasting c.Extends where
  write d byte line h := h.trans (extends_writeAll d [byte] line)
  append d k h := by
    refine h.trans ⟨List.prefix_rfl, ?_, List.prefix_rfl⟩
    rw [append, Array.toList_push]
    exact List.prefix_append _ _

theorem lasting_aligned : Lasting Aligned where
  write _ byte line h := h.writeAll [byte] line
  append _ _ h := h

theorem aligned_written (calls : List ChunkCall) : (written calls).Aligned :=
  lasting_aligned.run aligned_empty calls

end Chunk

end ExprMachine
