import ExprMachine.Proofs.Content.Simulation
import ExprMachine.Proofs.Machine.Faults

/-! Runs of arbitrary bytes. Every instruction but the last moves on within the code, so a run
comes to an end, and where it fails the line is that of the last instruction. -/

namespace ExprMachine

namespace Machine

/-- A run from a frame dispatches instructions that go on, and then a last one. Each is given
by the frame and the machine at which it is dispatched. -/
inductive Dispatches : Frame → Machine → List (Frame × Machine) → Frame × Machine → Prop
  | last {f : Frame} {m n : Machine} : m.note f.beginOp = .ok n →
    Dispatches f m [] (f.beginOp, n)
  | next {f g : Frame} {m n m' : Machine} {before : List (Frame × Machine)}
    {last : Frame × Machine} : m.note f.beginOp = .ok n → n.dispatch f.beginOp = .next g m' →
    Dispatches g m' before last → Dispatches f m ((f.beginOp, n) :: before) last

theorem note_ok {m n : Machine} {f : Frame} (h : m.note f = .ok n) : n.settings = m.settings := by
  unfold note at h
  split at h
  · cases hr : f.chunk.instructionAt f.start with
    | error e => rw [hr] at h; cases h
    | ok r => rw [hr] at h; cases h; rfl
  · cases h
    rfl

theorem exists_note {m : Machine} {f : Frame}
    (h : m.settings.trace = true → ∃ r, f.chunk.instructionAt f.start = .ok r) :
    ∃ n, m.note f = .ok n := by
  unfold note
  split
  · next ht =>
    obtain ⟨r, hr⟩ := h ht
    exact ⟨_, by rw [hr]; rfl⟩
  · exact ⟨m, rfl⟩

namespace Dispatches

variable {f : Frame} {m : Machine} {before : List (Frame × Machine)} {last : Frame × Machine}

theorem goes_on (h : Dispatches f m before last) {d : Frame × Machine} (hd : d ∈ before) :
    ∃ g m', d.2.dispatch d.1 = .next g m' := by
  induction h with
  | last => cases hd
  | next _ hn _ ih =>
    rcases List.mem_cons.mp hd with rfl | hd
    · exact ⟨_, _, hn⟩
    · exact ih hd

/-- Each instruction that goes on leaves less of the code to be read. -/
theorem bounds (h : Dispatches f m before last) (hn : f.next ≤ f.chunk.code.size) :
    before.length + f.next ≤ f.chunk.code.size ∧
      ∀ d ∈ before ++ [last], d.1.chunk = f.chunk ∧ d.1.start = d.1.next ∧
        d.1.next ≤ f.chunk.code.size := by
  induction h with
  | last =>
    refine ⟨by simpa using hn, fun d hd => ?_⟩
    obtain rfl := List.mem_singleton.mp hd
    exact ⟨rfl, rfl, hn⟩
  | @next f g m n m' before last _ hd _ ih =>
    obtain ⟨⟨i, hi, -⟩, -⟩ := dispatch_next hd
    obtain ⟨hc, -, hlt, hle, -⟩ := Frame.readInstruction_ok hi
    simp only [Frame.beginOp] at hc hlt hle
    obtain ⟨hb, hall⟩ := ih (by rw [hc]; exact hle)
    rw [hc] at hb hall
    refine ⟨by rw [List.length_cons]; omega, fun d hd => ?_⟩
    rcases List.mem_cons.mp hd with rfl | hd
    · exact ⟨rfl, rfl, hn⟩
    · exact hall d hd

/-- Only the last instruction can be a return. -/
theorem halts_iff (h : Dispatches f m before last) (hn : f.next ≤ f.chunk.code.size) :
    (∃ d ∈ before ++ [last], f.chunk.code[d.1.start]? = some Opcode.halt.toByte) ↔
      ∃ m', last.2.dispatch last.1 = .halted m' := by
  have hmem : last ∈ before ++ [last] := List.mem_append_right _ (List.mem_singleton_self _)
  obtain ⟨-, hall⟩ := h.bounds hn
  constructor
  · rintro ⟨d, hd, hbyte⟩
    obtain ⟨hc, hs, -⟩ := hall d hd
    rw [← hc, hs] at hbyte
    obtain ⟨m', hhalt⟩ := (dispatch_halted_iff (m := d.2)).mpr hbyte
    rcases List.mem_append.mp hd with hd | hd
    · obtain ⟨g, m'', hnext⟩ := h.goes_on hd
      rw [hnext] at hhalt
      cases hhalt
    · obtain rfl := List.mem_singleton.mp hd
      exact ⟨m', hhalt⟩
  · intro hhalt
    obtain ⟨hc, hs, -⟩ := hall last hmem
    refine ⟨last, hmem, ?_⟩
    rw [← hc, hs]
    exact dispatch_halted_iff.mp hhalt

end Dispatches

/-- A run that has enough steps left ends as its last instruction does. -/
theorem runFrom_dispatches {bound : Nat} {f : Frame} {m : Machine}
    (hb : f.chunk.code.size - f.next < bound) (hn : f.next ≤ f.chunk.code.size)
    (ht : m.settings.trace = true → ∀ offset ≤ f.chunk.code.size,
      ∃ r, f.chunk.instructionAt offset = .ok r) :
    ∃ before last, Dispatches f m before last ∧
      match last.2.dispatch last.1 with
      | .next _ _ => False
      | .halted m' => m.runFrom bound f = (.halted, m')
      | .failed e m' => m.runFrom bound f = (.ofFault last.1 e, m') := by
  induction bound generalizing f m with
  | zero => omega
  | succ bound ih =>
    obtain ⟨n, hm⟩ := exists_note (m := m) (f := f.beginOp) fun h => ht h f.next hn
    rw [runFrom]
    simp only [hm]
    cases hd : n.dispatch f.beginOp with
    | halted m' => exact ⟨[], _, .last hm, by simp only [hd]⟩
    | failed e m' => exact ⟨[], _, .last hm, by simp only [hd]⟩
    | next g m' =>
      obtain ⟨⟨i, hi, -⟩, hs⟩ := dispatch_next hd
      obtain ⟨hc, -, hlt, hle, -⟩ := Frame.readInstruction_ok hi
      simp only [Frame.beginOp] at hc hlt hle
      obtain ⟨before, last, hl, hend⟩ := ih (f := g) (m := m') (by rw [hc]; omega)
        (by rw [hc]; exact hle) (by rw [hs, note_ok hm, hc]; exact ht)
      exact ⟨_ :: before, last, .next hm hd hl, hend⟩

/-- What ends a run that is not refused is its last instruction, however large the chunk. -/
theorem dispatches_of_runFrom {bound : Nat} {f : Frame} {m m' : Machine} {ending : Ending}
    (hb : f.chunk.code.size - f.next < bound) (h : m.runFrom bound f = (ending, m'))
    (hr : ∀ r, ending ≠ .refused r) :
    ∃ before last, Dispatches f m before last ∧
      (ending = .halted ∧ last.2.dispatch last.1 = .halted m' ∨
        ∃ e, ending = .failed e ∧ last.2.dispatch last.1 = .failed e.fault m' ∧
          last.1.line = .ok e.line) := by
  induction bound generalizing f m with
  | zero => omega
  | succ bound ih =>
    rw [runFrom] at h
    cases hm : m.note f.beginOp with
    | error r =>
      simp only [hm] at h
      cases h
      exact absurd rfl (hr r)
    | ok n =>
      simp only [hm] at h
      cases hd : n.dispatch f.beginOp with
      | halted n' =>
        simp only [hd] at h
        cases h
        exact ⟨[], _, .last hm, .inl ⟨rfl, hd⟩⟩
      | failed fault n' =>
        simp only [hd, Ending.ofFault] at h
        cases hline : f.beginOp.line with
        | error r =>
          rw [hline] at h
          cases h
          exact absurd rfl (hr r)
        | ok line =>
          rw [hline] at h
          cases h
          exact ⟨[], _, .last hm, .inr ⟨_, rfl, hd, hline⟩⟩
      | next g n' =>
        simp only [hd] at h
        obtain ⟨⟨i, hi, -⟩, -⟩ := dispatch_next hd
        obtain ⟨hc, -, hlt, hle, -⟩ := Frame.readInstruction_ok hi
        simp only [Frame.beginOp] at hc hlt hle
        obtain ⟨before, last, hl, hend⟩ := ih (by rw [hc]; omega) h
        exact ⟨_ :: before, last, .next hm hd hl, hend⟩

theorem dispatches_of_interpretChunk {m m' : Machine} {c : Chunk} {v : Verdict}
    (h : m.interpretChunk c = (.ok v, m')) :
    ∃ before last, Dispatches (Frame.ofChunk c) m.cleared before last ∧
      (v = .ok ∧ last.2.dispatch last.1 = .halted m' ∨
        ∃ e, v = .runtimeError e ∧ last.2.dispatch last.1 = .failed e.fault m' ∧
          last.1.line = .ok e.line) := by
  have hm : m.tornDown = false := by
    rw [Bool.eq_false_iff]
    intro ht
    rw [interpretChunk, if_pos ht] at h
    cases h
  rw [interpretChunk_of_live hm] at h
  rcases hrun : m.cleared.runFrom (c.code.size + 1) (Frame.ofChunk c) with ⟨ending, n⟩
  rw [hrun] at h
  obtain ⟨hv, rfl⟩ := Prod.mk.inj h
  obtain ⟨before, last, hd, hend⟩ := dispatches_of_runFrom (f := Frame.ofChunk c)
    (Nat.lt_succ_self _) hrun (by rintro r rfl; cases hv)
  refine ⟨before, last, hd, ?_⟩
  rcases hend with ⟨rfl, hhalt⟩ | ⟨e, rfl, hfail⟩
  · cases hv
    exact .inl ⟨rfl, hhalt⟩
  · cases hv
    exact .inr ⟨e, rfl, hfail⟩

theorem Dispatches.safe {c : Chunk} {m : Machine} {before : List (Frame × Machine)}
    {last : Frame × Machine} (h : Dispatches (Frame.ofChunk c) m before last) :
    ∀ d ∈ before ++ [last], d.1.chunk = c ∧ d.2.SafeAt d.1 := by
  intro d hd
  obtain ⟨-, hall⟩ := h.bounds (Nat.zero_le _)
  obtain ⟨hc, hs, hn⟩ := hall d hd
  exact ⟨hc, d.2.safeAt hs (by rw [hc]; exact hn)⟩

theorem interpretChunk_dispatches {m : Machine} (hm : m.tornDown = false) {c : Chunk}
    (hl : c.lines.byteLines.length < Word.size)
    (ht : m.settings.trace = true → c.code.size + 1 < Word.size) :
    ∃ before last, Dispatches (Frame.ofChunk c) m.cleared before last ∧
      match last.2.dispatch last.1 with
      | .next _ _ => False
      | .halted m' => m.interpretChunk c = (.ok .ok, m')
      | .failed e m' =>
        m.interpretChunk c = (.ok (.runtimeError ⟨c.lineEntry last.1.start, e⟩), m') := by
  have htrace (h : m.cleared.settings.trace = true) :
      ∀ offset ≤ c.code.size, ∃ r, c.instructionAt offset = .ok r := fun offset ho =>
    c.exists_instructionAt hl fun _ => Nat.lt_of_le_of_lt (Nat.succ_le_succ ho) (ht h)
  have hbound : c.code.size - 0 < c.code.size + 1 := Nat.lt_succ_self _
  obtain ⟨before, last, hd, hend⟩ := runFrom_dispatches (f := Frame.ofChunk c) hbound
    (Nat.zero_le _) htrace
  obtain ⟨hc, -⟩ := hd.safe last (List.mem_append_right _ (List.mem_singleton_self _))
  refine ⟨before, last, hd, ?_⟩
  rw [interpretChunk_of_live hm]
  cases hstep : last.2.dispatch last.1 <;> rw [hstep] at hend
  · exact hend
  · simp only [hend, Ending.verdict]
  · simp only [hend, Ending.ofFault, Frame.line, hc, Chunk.lineAt_eq hl, Ending.verdict]

/-- A machine survives every chunk. It dispatches no more instructions than there are bytes of
code and one, each of them safely, and answers ok exactly if one of them is a return. Else it
answers with the fault of the last one, on the line that the table has for its first byte.
Where instructions are listed as they run, the end of the code must have a place, too. -/
theorem interpretChunk_safe (m : Machine) (hm : m.tornDown = false) (c : Chunk)
    (hl : c.lines.total < Word.size)
    (ht : m.settings.trace = true → c.code.size + 1 < Word.size) :
    ∃ before last, Dispatches (Frame.ofChunk c) m.cleared before last ∧
      (before ++ [last]).length ≤ c.code.size + 1 ∧
      (∀ d ∈ before ++ [last], d.1.chunk = c ∧ d.2.SafeAt d.1) ∧
      ((m.interpretChunk c).1 = .ok .ok ↔
        ∃ d ∈ before ++ [last], c.code[d.1.start]? = some Opcode.halt.toByte) ∧
      ((m.interpretChunk c).1 = .ok .ok ∨
        ∃ e m', last.2.dispatch last.1 = .failed e m' ∧
          m.interpretChunk c = (.ok (.runtimeError ⟨c.lineEntry last.1.start, e⟩), m')) := by
  rw [← LineTable.length_byteLines] at hl
  obtain ⟨before, last, hd, hend⟩ := interpretChunk_dispatches hm hl ht
  obtain ⟨hlen, -⟩ := hd.bounds (Nat.zero_le _)
  have hhalts := hd.halts_iff (Nat.zero_le _)
  refine ⟨before, last, hd, ?_, hd.safe, ?_⟩
  · rw [List.length_append, List.length_singleton]
    exact Nat.succ_le_succ hlen
  · cases hstep : last.2.dispatch last.1 with
    | next g m' => rw [hstep] at hend; exact hend.elim
    | halted m' =>
      rw [hstep] at hend
      rw [hend]
      exact ⟨iff_of_true rfl (hhalts.mpr ⟨m', hstep⟩), .inl rfl⟩
    | failed e m' =>
      rw [hstep] at hend
      rw [hend]
      refine ⟨iff_of_false nofun fun h => ?_, .inr ⟨e, m', rfl, rfl⟩⟩
      obtain ⟨n, hn⟩ := hhalts.mp h
      rw [hn] at hstep
      cases hstep

/-- The code ends within the second instruction, and the table after the first. -/
theorem interpretChunk_safe_truncated :
    let c : Chunk := ⟨#[3, 2, 0], #[], ⟨#[⟨7, 1⟩]⟩⟩
    let m := new ⟨1, true, false⟩
    c.lines.total < Word.size ∧ c.code.size + 1 < Word.size ∧
    ∃ before last, Dispatches (Frame.ofChunk c) m.cleared before last ∧
      (before ++ [last]).length ≤ 4 ∧
      (m.interpretChunk c).1 = .ok (.runtimeError ⟨7, .truncated 3⟩) ∧
      ∃ e m', last.2.dispatch last.1 = .failed e m' ∧
        m.interpretChunk c = (.ok (.runtimeError ⟨c.lineEntry last.1.start, e⟩), m') := by
  intro c m
  have hr : (m.interpretChunk c).1 = .ok (.runtimeError ⟨7, .truncated 3⟩) := by rfl
  obtain ⟨before, last, hd, hlen, -, -, hend⟩ :=
    interpretChunk_safe m rfl c (by decide) fun _ => by decide
  refine ⟨by decide, by decide, before, last, hd, hlen, hr, ?_⟩
  rcases hend with hok | hfail
  · rw [hr] at hok
    cases hok
  · exact hfail

end Machine

end ExprMachine
