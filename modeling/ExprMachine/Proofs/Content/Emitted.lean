import ExprMachine.Proofs.Chunk.Lines
import ExprMachine.Proofs.Content.Machine

/-! Running instructions as they were emitted instead of reading them from a chunk. -/

namespace ExprMachine

/-- No byte of a chunk with a word for its size is refused a line. -/
theorem Chunk.Aligned.listed {c : Chunk} (ha : c.Aligned) (hw : c.code.size < Word.size)
    {offset : Nat} (ho : offset < c.code.size) (trace : Bool) :
    ContentMachine.listed trace ⟨c, offset, offset⟩ = .ok () := by
  have hb : c.lines.byteLines.length < Word.size := by rwa [ha]
  have hn : c.code[offset]? ≠ none := by rw [Array.getElem?_eq_getElem ho]; exact nofun
  obtain ⟨r, hr⟩ := Chunk.exists_instructionAt hb fun h => absurd h hn
  cases trace with
  | false => rfl
  | true =>
    simp only [ContentMachine.listed, if_true, hr]
    rfl

namespace ContentMachine

/-- Runs instructions until one of them halts or fails, or there are no more. -/
def runAll : List Emission → ContentMachine → Ending × ContentMachine
  | [], m => (.halted, m)
  | e :: rest, m =>
    if e.instruction = .op .halt then (.halted, m)
    else
      match m.execute e.instruction with
      | .ok m => runAll rest m
      | .error fault => (.failed ⟨e.line, fault⟩, m)

theorem runAll_cons {e : Emission} (he : e.instruction ≠ .op .halt) (rest : List Emission)
    (m : ContentMachine) :
    runAll (e :: rest) m = match m.execute e.instruction with
      | .ok m => runAll rest m
      | .error fault => (.failed ⟨e.line, fault⟩, m) := by
  rw [runAll, if_neg he]

theorem runAll_append {first : List Emission} (hf : ∀ e ∈ first, e.instruction ≠ .op .halt)
    (rest : List Emission) (m : ContentMachine) :
    runAll (first ++ rest) m = match runAll first m with
      | (.halted, m) => runAll rest m
      | ending => ending := by
  induction first generalizing m with
  | nil => rfl
  | cons e first ih =>
    have he := hf e (by simp)
    rw [List.cons_append, runAll_cons he, runAll_cons he]
    cases m.execute e.instruction with
    | ok m => exact ih (fun e h => hf e (by simp [h])) m
    | error fault => rfl

theorem exists_halt_rest {e : Emission} {rest : List Emission}
    (h : ∃ x ∈ e :: rest, x.instruction = .op .halt) (he : e.instruction ≠ .op .halt) :
    ∃ x ∈ rest, x.instruction = .op .halt := by
  obtain ⟨x, hx, hhalt⟩ := h
  rcases List.mem_cons.mp hx with rfl | hx
  · exact absurd hhalt he
  · exact ⟨x, hx, hhalt⟩

/-- Code is run as the instructions that are read from it, up to the one that halts. -/
theorem runFrom_of_decodes {c : Chunk} {offset : Nat} {es : List Emission}
    (h : Decodes c offset es) (hhalt : ∃ e ∈ es, e.instruction = .op .halt) (ha : c.Aligned)
    (hw : c.code.size < Word.size) (trace : Bool) (start : Nat) (m : ContentMachine) :
    runFrom trace ⟨c, offset, start⟩ m = runAll es m := by
  induction h generalizing start m with
  | done => simp at hhalt
  | @next offset after line i rest hi hlt hl _ ih =>
    have ho : offset < c.code.size := by
      obtain ⟨-, -, hlt', hle, -⟩ := Frame.readInstruction_ok hi
      exact Nat.lt_of_lt_of_le hlt' hle
    have hline : c.lineAt offset = .ok line :=
      Chunk.lineAt_of_byteLines (by rwa [ha]) (hl offset (Nat.le_refl _) hlt)
    rw [runFrom_eq, Frame.beginOp]
    simp only [ha.listed hw ho trace, hi]
    by_cases hh : i = .op .halt
    · rw [if_pos hh, runAll, if_pos hh]
    · rw [if_neg hh, runAll_cons hh]
      cases m.execute i with
      | ok m => exact ih (exists_halt_rest hhalt hh) offset m
      | error fault => simp only [Ending.ofFault, Frame.line, hline]

end ContentMachine

end ExprMachine
