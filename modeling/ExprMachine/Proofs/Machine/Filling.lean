import ExprMachine.Proofs.Content.Simulation
import ExprMachine.Proofs.Machine.Endurance
import Mathlib

/-! What instructions do to the heap: they add strings to it, and nothing else. So the count of
bytes stays that of the strings. -/

namespace ExprMachine

namespace Heap

/-- The bytes of the strings that the heap holds. -/
def stringBytes (h : Heap) : Nat := (h.values.toList.map fun entry => entry.2.utf8ByteSize).sum

/-- A coherent heap whose count of bytes is right. -/
structure Accounted (h : Heap) : Prop extends h.Coherent where
  bytes_eq : h.bytes = h.stringBytes

theorem accounted_empty : empty.Accounted where
  toCoherent := ⟨fun s id => by simp [empty], fun id s => by simp [empty]⟩
  bytes_eq := by simp [stringBytes, empty]

theorem accounted_release (h : Heap) : h.release.Accounted where
  toCoherent := coherent_release h
  bytes_eq := by simp [stringBytes, release]

theorem sum_insert_of_not_mem {values : Std.HashMap Nat String} {id : Nat} (h : id ∉ values)
    (s : String) :
    ((values.insert id s).toList.map fun entry => entry.2.utf8ByteSize).sum =
      s.utf8ByteSize + (values.toList.map fun entry => entry.2.utf8ByteSize).sum := by
  have hkept : values.toList.filter (fun entry => decide ¬(id == entry.1) = true) =
      values.toList := by
    refine List.filter_eq_self.mpr fun entry he => ?_
    have hmem : entry.1 ∈ values := by
      rw [Std.HashMap.mem_iff_isSome_getElem?,
        Std.HashMap.mem_toList_iff_getElem?_eq_some.mp he]
      rfl
    have hne : id ≠ entry.1 := fun hid => h (hid ▸ hmem)
    simpa using hne
  have hp := (Std.HashMap.toList_insert_perm (m := values) (k := id) (v := s)).map
    fun entry => entry.2.utf8ByteSize
  rw [hkept, List.map_cons] at hp
  exact hp.sum_nat

theorem Accounted.intern {h : Heap} (ha : h.Accounted) (s : String) :
    (h.intern s).1.Accounted := by
  have hinterned : h.intern s = ((h.intern s).1, (h.intern s).2) := rfl
  obtain ⟨hc, -, -⟩ := ha.toCoherent.intern hinterned
  refine ⟨hc, ?_⟩
  unfold Heap.intern
  split
  · exact ha.bytes_eq
  · have hfresh : h.freshId ∉ h.values := by
      rw [ha.freshId, Std.HashMap.mem_iff_isSome_getElem?]
      cases hs : h.values[h.lastId + 1]? with
      | none => exact Bool.false_ne_true
      | some t => exact absurd (ha.le_last _ _ hs) (by omega)
    show h.bytes + s.utf8ByteSize = _
    rw [ha.bytes_eq, Nat.add_comm]
    exact (sum_insert_of_not_mem hfresh s).symm

/-- What has become of a heap to which strings were added. -/
abbrev Filled : Heap → Heap → Prop :=
  Relation.ReflTransGen fun h h' => ∃ s, h' = (h.intern s).1

theorem filled_intern (h : Heap) (s : String) : h.Filled (h.intern s).1 := .single ⟨s, rfl⟩

theorem Accounted.filled {h h' : Heap} (ha : h.Accounted) (hf : h.Filled h') : h'.Accounted := by
  induction hf with
  | refl => exact ha
  | tail _ hs ih =>
    obtain ⟨s, rfl⟩ := hs
    exact ih.intern s

end Heap

namespace Machine

/-- An operator that gives a machine has only added strings to the heap. -/
def Fills (m : Machine) (r : Except Fault Machine) : Prop :=
  ∀ m', r = .ok m' → m.heap.Filled m'.heap

section
variable {m : Machine}

theorem fills_error (e : Fault) : m.Fills (.error e) := nofun

theorem fills_withStack {heap : Heap} (hf : m.heap.Filled heap) (r : Except StackFault Stack) :
    m.Fills (withStack { m with heap := heap } r) := by
  intro m' h
  cases r with
  | ok s => cases h; exact hf
  | error e => cases h

theorem fills_bind {α : Type} {r : Except Fault α} {g : α → Except Fault Machine}
    (hg : ∀ x, m.Fills (g x)) : m.Fills (r >>= g) := by
  cases r with
  | ok x => exact hg x
  | error e => exact fills_error e

theorem fills_push (v : Value) : m.Fills (m.push v) := fills_withStack .refl _

theorem fills_replace (n : Nat) (v : Value) : m.Fills (m.replace n v) := fills_withStack .refl _

end

variable (m : Machine)

theorem fills_numeric (op : NumericOp) : m.Fills (m.numeric op) := by
  refine fills_bind fun p => ?_
  obtain ⟨v, w⟩ := p
  cases v <;> cases w <;> try exact fills_error _
  next x y =>
    by_cases hz : op = .divide ∧ (y == 0) = true
    · simp only [hz, and_self, if_true]
      exact fills_error _
    · simp only [hz, if_false]
      exact fills_replace 2 _

theorem fills_concatenate : m.Fills m.concatenate := by
  refine fills_bind fun p => ?_
  obtain ⟨v, w⟩ := p
  cases v <;> cases w <;> try exact fills_error _
  next i j =>
    cases hi : m.heap.get? i with
    | none => simp only [hi]; exact fills_error _
    | some s =>
      cases hj : m.heap.get? j with
      | none => simp only [hi, hj]; exact fills_error _
      | some t =>
        simp only [hi, hj]
        exact fills_withStack (m.heap.filled_intern (s ++ t)) _

theorem fills_add : m.Fills m.add := by
  refine fills_bind fun p => ?_
  obtain ⟨v, w⟩ := p
  cases v <;> cases w <;> try exact fills_error _
  · exact m.fills_numeric .add
  · exact m.fills_concatenate

theorem fills_equal : m.Fills m.equal := fills_bind fun _ => fills_replace 2 _

theorem fills_negate : m.Fills m.negate := by
  refine fills_bind fun v => ?_
  cases v with
  | number x => exact fills_replace 1 _
  | _ => exact fills_error _

theorem fills_not : m.Fills m.not := fills_bind fun _ => fills_replace 1 _

theorem fills_discard : m.Fills m.discard := fills_bind fun _ m' h => by cases h; exact .refl

theorem fills_printTop : m.Fills m.printTop :=
  fills_bind fun _ => fills_bind fun _ m' h => by cases h; exact .refl

variable {m}

theorem Fills.ofResult {r : Except Fault Machine} (h : m.Fills r) (f : Frame) :
    m.heap.Filled (Step.ofResult f m r).machine.heap := by
  cases r with
  | ok m' => exact h m' rfl
  | error e => exact .refl

theorem filled_perform (m : Machine) (f : Frame) {i : Instruction} (hp : i.Plain) :
    m.heap.Filled (m.perform f i).machine.heap := by
  cases i with
  | load k =>
    cases k with
    | number x => exact (fills_push _).ofResult f
    | text s =>
      have hs := (fills_push (m := m.holding s) (.string (m.heap.intern s).2)).ofResult f
      exact (m.heap.filled_intern s).trans hs
  | op code =>
    cases code with
    | halt => exact .refl
    | constant | constantLong => cases hp
    | nil | yes | no => exact (fills_push _).ofResult f
    | pop => exact m.fills_discard.ofResult f
    | equal => exact m.fills_equal.ofResult f
    | greater | less | subtract | multiply | divide => exact (m.fills_numeric _).ofResult f
    | add => exact m.fills_add.ofResult f
    | not => exact m.fills_not.ofResult f
    | negate => exact m.fills_negate.ofResult f
    | print => exact m.fills_printTop.ofResult f

theorem filled_dispatch (m : Machine) (f : Frame) :
    m.heap.Filled (m.dispatch f).machine.heap := by
  rw [dispatch_eq]
  rcases hi : f.readInstruction with ⟨e | i, g⟩
  · exact .refl
  · obtain ⟨-, -, -, -, hp⟩ := Frame.readInstruction_ok hi
    exact m.filled_perform g hp

theorem filled_runFrom (m : Machine) (bound : Nat) (f : Frame) :
    m.heap.Filled (m.runFrom bound f).2.heap :=
  relates_runFrom (R := fun m m' => m.heap.Filled m'.heap) (fun _ => .refl) (fun _ _ _ => .trans)
    (fun _ _ => .refl) filled_dispatch m bound f

theorem capacity_dispatch (m : Machine) (f : Frame) :
    (m.dispatch f).machine.stack.capacity = m.stack.capacity := by
  rw [dispatch_eq]
  rcases f.readInstruction with ⟨e | i, g⟩
  · rfl
  · have hl := m.leaves_perform g i
    cases hs : m.perform g i with
    | next _ m' | halted m' =>
      rw [hs] at hl
      obtain ⟨-, hc, -⟩ := hl
      simpa only [hs, Step.machine] using hc
    | failed e m' =>
      rw [hs] at hl
      obtain ⟨hstack, -⟩ := hl
      simp only [hs, Step.machine, hstack]

theorem capacity_runFrom (m : Machine) (bound : Nat) (f : Frame) :
    (m.runFrom bound f).2.stack.capacity = m.stack.capacity :=
  relates_runFrom (R := fun m m' => m'.stack.capacity = m.stack.capacity) (fun _ => rfl)
    (fun _ _ _ h h' => h'.trans h) (fun _ _ => rfl) capacity_dispatch m bound f

theorem capacity_interpretChunk {m : Machine} (hm : m.tornDown = false) (c : Chunk) :
    (m.interpretChunk c).2.stack.capacity = m.stack.capacity := by
  rw [interpretChunk_of_live hm]
  exact m.cleared.capacity_runFrom _ _

/-- The heap that a run leaves is accounted for, however the run has ended. -/
theorem accounted_interpretChunk {m : Machine} (hm : m.tornDown = false) (c : Chunk) :
    (m.interpretChunk c).2.heap.Accounted := by
  rw [interpretChunk_of_live hm]
  exact (Heap.accounted_release m.heap).filled (m.cleared.filled_runFrom _ _)

end Machine

end ExprMachine
