import ExprMachine.Proofs.Machine.Reading

/-! Reading a chunk gives back what was written to it, from the first byte to the last. -/

namespace ExprMachine

/-- An instruction with the offsets of its first byte and of the byte after its last. -/
structure Reading where
  instruction : Instruction
  start : Nat
  stop : Nat

/-- Reads instructions as long as there are any, and says where reading stops. -/
def Frame.readAll (f : Frame) : List Reading × Nat :=
  match _hi : f.beginOp.readInstruction with
  | (.error _, _) => ([], f.next)
  | (.ok i, g) => (⟨i, f.next, g.next⟩ :: g.readAll.1, g.readAll.2)
termination_by f.chunk.code.size - f.next
decreasing_by
  all_goals
    obtain ⟨hc, -, hlt, hle, -⟩ := Frame.readInstruction_ok _hi
    rw [hc]
    simp only [Frame.beginOp] at hlt hle ⊢
    omega

theorem Frame.readAll_of_error {f g : Frame} {e : Fault}
    (h : f.beginOp.readInstruction = (.error e, g)) : f.readAll = ([], f.next) := by
  rw [readAll]
  split
  · rfl
  · next hi =>
    rw [h] at hi
    cases hi

theorem Frame.readAll_of_ok {f g : Frame} {i : Instruction}
    (h : f.beginOp.readInstruction = (.ok i, g)) :
    f.readAll = (⟨i, f.next, g.next⟩ :: g.readAll.1, g.readAll.2) := by
  rw [readAll]
  split
  · next hi =>
    rw [h] at hi
    cases hi
  · next hi =>
    rw [h] at hi
    cases hi
    rfl

/-- The instruction that was emitted, with a line in the table for each of its bytes. -/
structure Emission.ReadAs (c : Chunk) (e : Emission) (r : Reading) : Prop where
  instruction : r.instruction = e.instruction
  nonempty : r.start < r.stop
  lines : ∀ offset, r.start ≤ offset → offset < r.stop →
    c.lines.byteLines[offset]? = some e.line

theorem readAll_of_decodes {c : Chunk} {offset : Nat} {es : List Emission}
    (h : Decodes c offset es) (start : Nat) :
    ∃ rs, (Frame.mk c offset start).readAll = (rs, c.code.size) ∧
      List.Forall₂ (Emission.ReadAs c) es rs := by
  induction h generalizing start with
  | done =>
    have hend : (Frame.mk c c.code.size c.code.size).readInstruction =
        (.error (.truncated c.code.size), ⟨c, c.code.size, c.code.size⟩) := by
      simp [Frame.readInstruction, Frame.readByte]
    exact ⟨[], Frame.readAll_of_error hend, .nil⟩
  | @next offset after line i rest hi hlt hl _ ih =>
    obtain ⟨rs, hrs, hall⟩ := ih offset
    refine ⟨⟨i, offset, after⟩ :: rs, ?_, .cons ⟨rfl, hlt, hl⟩ hall⟩
    rw [Frame.readAll_of_ok (f := ⟨c, offset, start⟩) hi, hrs]

/-- Whatever instructions are written to an empty chunk, they are read back in order up to the
end of the code, and every byte of an instruction has the line it was emitted with. No chunk has
more bytes than a word counts. -/
theorem Chunk.readAll_addAll? (es : List Emission) (hp : ∀ e ∈ es, e.instruction.Plain)
    (hk : (es.filterMap fun e => e.instruction.constant?).dedup.length ≤ 16777216) :
    ∃ c rs, empty.addAll? es = some c ∧ (Frame.ofChunk c).readAll = (rs, c.code.size) ∧
      List.Forall₂ (fun e r => r.instruction = e.instruction ∧ r.start < r.stop ∧
        (c.code.size < Word.size → ∀ offset, r.start ≤ offset → offset < r.stop →
          c.lineAt offset = .ok e.line)) es rs := by
  have hfit : ∃ c, empty.addAll? es = some c := by
    refine exists_addAll? hk (poolWithin_empty _) fun e he k hk => ?_
    exact List.mem_dedup.mpr (List.mem_filterMap.mpr ⟨e, he, hk⟩)
  obtain ⟨c, hc⟩ := hfit
  obtain ⟨-, ha, hd⟩ := addAll?_spec aligned_empty hp hc
  obtain ⟨rs, hrs, hall⟩ := readAll_of_decodes hd 0
  refine ⟨c, rs, hc, hrs, hall.imp fun e r hr => ⟨hr.instruction, hr.nonempty, ?_⟩⟩
  intro hw offset hstart hstop
  exact lineAt_of_byteLines (by rwa [ha]) (hr.lines offset hstart hstop)

/-- Three hundred texts, which take both instructions that load a constant, and the first text
again. -/
theorem Chunk.readAll_addAll?_texts :
    let es : List Emission :=
      (List.range 300 ++ [0]).map fun n => ⟨.load (.text (toString n)), n / 100⟩
    (∀ e ∈ es, e.instruction.Plain) ∧
    (es.filterMap fun e => e.instruction.constant?).dedup.length ≤ 16777216 ∧
    ∃ c rs, empty.addAll? es = some c ∧ (Frame.ofChunk c).readAll = (rs, c.code.size) ∧
      rs.map Reading.instruction = es.map Emission.instruction := by
  intro es
  have hp : ∀ e ∈ es, e.instruction.Plain := by
    intro e he
    obtain ⟨n, -, rfl⟩ := List.mem_map.mp he
    trivial
  have hk : (es.filterMap fun e => e.instruction.constant?).dedup.length ≤ 16777216 := by
    refine Nat.le_trans (List.dedup_sublist _).length_le ?_
    refine Nat.le_trans (List.length_filterMap_le _ _) ?_
    simp [es]
  obtain ⟨c, rs, hc, hrs, hall⟩ := readAll_addAll? es hp hk
  refine ⟨hp, hk, c, rs, hc, hrs, ?_⟩
  have hsame : List.Forall₂ (· = ·) (rs.map Reading.instruction) (es.map Emission.instruction) := by
    rw [List.forall₂_map_left_iff, List.forall₂_map_right_iff]
    exact (hall.imp fun e r h => h.1).flip
  rwa [List.forall₂_eq_eq_eq] at hsame

end ExprMachine
