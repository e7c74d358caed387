import ExprMachine.Machine.Interpret
import ExprMachine.Proofs.Content.Operators
import Mathlib.Logic.Relation

/-! The machine with a heap does what the machine without one does. Handles and what earlier
runs have left behind cannot be observed. -/

namespace ExprMachine

namespace Machine

variable {m₀ m : Machine} {s : ContentMachine}

/-- A step that goes on shows what the instruction makes of `s`, and one that fails still
shows `s`. -/
def StepAgrees (m₀ : Machine) (s : ContentMachine) (f : Frame) (st : Step) :
    Except Fault ContentMachine → Prop
  | .ok s' => ∃ m', st = .next f m' ∧ m₀.Shows m' s'
  | .error e => ∃ m', st = .failed e m' ∧ m₀.Shows m' s

theorem Shows.ofResult (h : m₀.Shows m s) (f : Frame) {r : Except Fault Machine}
    {a : Except Fault ContentMachine} (ha : m₀.Agrees r a) :
    m₀.StepAgrees s f (.ofResult f m r) a := by
  cases r with
  | ok m' =>
    cases a with
    | ok s' => exact ⟨m', rfl, ha⟩
    | error e => exact ha.elim
  | error e =>
    cases a with
    | ok s' => exact ha.elim
    | error e' =>
      obtain rfl : e = e' := ha
      exact ⟨m, rfl, h⟩

theorem Shows.perform (h : m₀.Shows m s) (f : Frame) {i : Instruction} (hp : i.Plain)
    (hh : i ≠ .op .halt) : m₀.StepAgrees s f (m.perform f i) (s.execute i) := by
  cases i with
  | load k =>
    cases k with
    | number x => exact h.ofResult f (h.push rfl)
    | text t =>
      obtain ⟨heap, id, hin⟩ : ∃ heap id, m.heap.intern t = (heap, id) := ⟨_, _, rfl⟩
      obtain ⟨hc, hg, hid⟩ := h.coherent.intern hin
      have hgrown := h.grow hc hg
      simp only [Machine.perform, hin]
      exact hgrown.ofResult f (hgrown.push (by simp [Heap.content?, hid]))
  | op code =>
    cases code with
    | halt => exact absurd rfl hh
    | constant | constantLong => cases hp
    | nil | yes | no => exact h.ofResult f (h.push rfl)
    | pop => exact h.ofResult f h.discard
    | equal => exact h.ofResult f h.equal
    | greater | less | subtract | multiply | divide => exact h.ofResult f (h.numeric _)
    | add => exact h.ofResult f h.add
    | not => exact h.ofResult f h.not
    | negate => exact h.ofResult f h.negate
    | print => exact h.ofResult f h.printTop

theorem Shows.note (h : m₀.Shows m s) (f : Frame) :
    match ContentMachine.listed m₀.settings.trace f with
    | .ok () => ∃ m', m.note f = .ok m' ∧ m₀.Shows m' s
    | .error e => m.note f = .error e := by
  unfold ContentMachine.listed Machine.note
  rw [h.settings]
  cases m₀.settings.trace with
  | false => exact ⟨m, rfl, h⟩
  | true =>
    simp only [if_true]
    cases f.chunk.instructionAt f.start with
    | error e => rfl
    | ok r => exact ⟨_, rfl, rfl, h.capacity, h.coherent, h.stack, h.output, h.console⟩

theorem Shows.runFrom (h : m₀.Shows m s) {bound : Nat} {f : Frame}
    (hb : f.chunk.code.size - f.next < bound) :
    (m.runFrom bound f).1 = (ContentMachine.runFrom m₀.settings.trace f s).1 ∧
      m₀.Shows (m.runFrom bound f).2 (ContentMachine.runFrom m₀.settings.trace f s).2 := by
  induction bound generalizing f m s with
  | zero => omega
  | succ bound ih =>
    rw [ContentMachine.runFrom_eq, Machine.runFrom]
    have hn := h.note f.beginOp
    split at hn
    · next hl =>
      obtain ⟨m', hm, hs⟩ := hn
      simp only [hm, hl, dispatch_eq]
      rcases hi : f.beginOp.readInstruction with ⟨e | i, g⟩
      · exact ⟨rfl, hs⟩
      · by_cases hh : i = .op .halt
        · subst hh
          simp only [if_true]
          exact ⟨rfl, hs⟩
        · obtain ⟨hc, -, hlt, hle, hp⟩ := Frame.readInstruction_ok hi
          simp only [Frame.beginOp] at hc hlt hle
          have hst := hs.perform g hp hh
          simp only [hh, if_false]
          cases he : s.execute i with
          | ok s' =>
            rw [he] at hst
            obtain ⟨m'', hm', hs'⟩ := hst
            simp only [hm']
            exact ih hs' (by rw [hc]; omega)
          | error e =>
            rw [he] at hst
            obtain ⟨m'', hm', hs'⟩ := hst
            rw [hm']
            exact ⟨rfl, hs'⟩
    · next e hl =>
      rw [hn, hl]
      exact ⟨rfl, h⟩

end Machine

def Ending.verdict : Ending → Except Refusal Verdict
  | halted => .ok .ok
  | failed e => .ok (.runtimeError e)
  | refused r => .error r

namespace Machine

def cleared (m : Machine) : Machine :=
  { m with stack := m.stack.clear, heap := m.heap.release }

theorem shows_cleared (m : Machine) :
    m.Shows m.cleared ⟨m.stack.capacity, [], []⟩ where
  settings := rfl
  capacity := rfl
  coherent := Heap.coherent_release m.heap
  stack := rfl
  output := (List.append_nil _).symm
  console := by split <;> exact (List.append_nil _).symm

theorem interpretChunk_of_live {m : Machine} (hm : m.tornDown = false) (c : Chunk) :
    m.interpretChunk c =
      ((runFrom (c.code.size + 1) (Frame.ofChunk c) m.cleared).1.verdict,
        (runFrom (c.code.size + 1) (Frame.ofChunk c) m.cleared).2) := by
  rw [interpretChunk, if_neg (by rw [hm]; exact Bool.false_ne_true)]
  dsimp only [cleared]
  rcases runFrom (c.code.size + 1) (Frame.ofChunk c)
    { m with stack := m.stack.clear, heap := m.heap.release } with ⟨e, m'⟩
  cases e <;> rfl

/-- A chunk is interpreted as it is run without a heap, from an empty stack. -/
theorem interpretChunk_shows {m : Machine} (hm : m.tornDown = false) (c : Chunk) :
    (m.interpretChunk c).1 =
        (ContentMachine.run m.settings.trace m.stack.capacity c).1.verdict ∧
      m.Shows (m.interpretChunk c).2
        (ContentMachine.run m.settings.trace m.stack.capacity c).2 := by
  obtain ⟨he, hs⟩ := m.shows_cleared.runFrom (f := Frame.ofChunk c) (Nat.lt_succ_self _)
  rw [interpretChunk_of_live hm]
  exact ⟨congrArg Ending.verdict he, hs⟩

end Machine

end ExprMachine
