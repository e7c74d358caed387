import ExprMachine.Proofs.Machine.HeapCalls
import ExprMachine.Proofs.Machine.Life

/-! Handles of strings that were released. Whatever happens to a machine comes to strings that are
interned in its heap and to releases of the heap, and the handles are counted on through both. -/

namespace ExprMachine

namespace Heap

/-- What has become of a heap after some calls. -/
abbrev Called : Heap → Heap → Prop :=
  Relation.ReflTransGen fun h h' => ∃ c, h' = h.apply c

theorem Coherent.apply {h : Heap} (hc : h.Coherent) (c : HeapCall) : (h.apply c).Coherent := by
  cases c with
  | intern s => exact hc.coherent_intern s
  | release => exact coherent_release h

theorem Coherent.called {h h' : Heap} (hc : h.Coherent) (hh : h.Called h') : h'.Coherent := by
  induction hh with
  | refl => exact hc
  | tail _ hs ih =>
    obtain ⟨c, rfl⟩ := hs
    exact ih.apply c

theorem called_intern (h : Heap) (s : String) : h.Called (h.intern s).1 := .single ⟨.intern s, rfl⟩

theorem called_release (h : Heap) : h.Called h.release := .single ⟨.release, rfl⟩

theorem Filled.called {h h' : Heap} (hf : h.Filled h') : h.Called h' := by
  induction hf with
  | refl => exact .refl
  | tail _ hs ih =>
    obtain ⟨s, rfl⟩ := hs
    exact ih.trans (called_intern _ s)

/-- The handle was given out, and its string is gone. -/
structure Spent (h : Heap) (id : Nat) : Prop where
  le_last : id ≤ h.lastId
  get? : h.get? id = none

theorem Spent.release {h : Heap} {id : Nat} (hle : id ≤ h.lastId) : h.release.Spent id where
  le_last := hle
  get? := by simp [Heap.get?, Heap.release]

theorem Spent.intern {h : Heap} {id : Nat} (hd : h.Spent id) (hc : h.Coherent) (s : String) :
    (h.intern s).1.Spent id := by
  by_cases hs : s ∈ h.interned
  · rw [intern_of_mem hs]
    exact hd
  · rw [intern_of_not_mem hs, hc.freshId]
    have hle := hd.le_last
    have hne : h.lastId + 1 ≠ id := by omega
    have hget : h.values[id]? = none := hd.get?
    refine ⟨Nat.le_succ_of_le hle, ?_⟩
    rw [Heap.get?, Std.HashMap.getElem?_insert, hget]
    simp [hne]

theorem Spent.called {h h' : Heap} {id : Nat} (hd : h.Spent id) (hc : h.Coherent)
    (hh : h.Called h') : h'.Spent id := by
  induction hh with
  | refl => exact hd
  | tail hh hs ih =>
    obtain ⟨c, rfl⟩ := hs
    cases c with
    | intern s => exact ih.intern (hc.called hh) s
    | release => exact .release ih.le_last

theorem Spent.ne_intern {h : Heap} {id : Nat} (hd : h.Spent id) (hc : h.Coherent) (s : String) :
    (h.intern s).2 ≠ id := by
  rintro rfl
  have hnone := (hd.intern hc s).get?
  rw [hc.get?_intern] at hnone
  cases hnone

theorem Coherent.lastId_le_intern {h : Heap} (hc : h.Coherent) (s : String) :
    h.lastId ≤ (h.intern s).1.lastId := by
  by_cases hs : s ∈ h.interned
  · rw [intern_of_mem hs]
  · rw [intern_of_not_mem hs, hc.freshId]
    exact Nat.le_succ _

theorem Coherent.lastId_le_of_called {h h' : Heap} (hc : h.Coherent) (hh : h.Called h') :
    h.lastId ≤ h'.lastId := by
  induction hh with
  | refl => exact Nat.le_refl _
  | tail hh hs ih =>
    obtain ⟨c, rfl⟩ := hs
    apply Nat.le_trans ih
    cases c with
    | intern s => exact (hc.called hh).lastId_le_intern s
    | release => exact Nat.le_refl _

end Heap

namespace Machine

/-- One thing that happens to a machine: a call, an instruction of a run, or what is done to the
heap or beside it. -/
inductive Happens : Machine → Machine → Prop
  | call (m : Machine) (c : Call) : (∀ settings, c ≠ .create settings) → Happens m (m.reply c).2
  | starts (m : Machine) : m.tornDown = false → Happens m m.cleared
  | dispatch (m : Machine) (f : Frame) : Happens m (m.dispatch f).machine
  | concatenate {m m' : Machine} : m.concatenate = .ok m' → Happens m m'
  | intern (m : Machine) (s : String) : Happens m (m.holding s)
  | freeAll (m : Machine) : Happens m m.freeAll.2
  | beside {m m' : Machine} : m'.heap = m.heap → Happens m m'

abbrev Becomes := Relation.ReflTransGen Happens

/-- What releases the heap, at the latest before it ends. -/
inductive Releases : Machine → Machine → Prop
  | init (m : Machine) : Releases m m.init
  | teardown {m m' : Machine} {t : Teardown} : m.teardown = .ok (t, m') → Releases m m'
  | interpretChunk {m : Machine} (c : Chunk) : m.tornDown = false →
    Releases m (m.interpretChunk c).2
  | interpret {m : Machine} {source : String} {c : Chunk} : m.tornDown = false →
    compile source = .ok c → Releases m (m.interpret source).2
  | starts {m : Machine} : m.tornDown = false → Releases m m.cleared
  | freeAll (m : Machine) : Releases m m.freeAll.2

theorem called_interpretChunk {m : Machine} (hm : m.tornDown = false) (c : Chunk) :
    m.heap.release.Called (m.interpretChunk c).2.heap := by
  rw [interpretChunk_of_live hm]
  exact (m.cleared.filled_runFrom _ _).called

theorem Releases.called {m m' : Machine} (h : m.Releases m') : m.heap.release.Called m'.heap := by
  cases h with
  | init => exact .refl
  | teardown ht =>
    unfold Machine.teardown at ht
    split at ht
    · cases ht
    · cases ht
      exact .refl
  | interpretChunk c hm => exact called_interpretChunk hm c
  | interpret hm hc =>
    rw [interpret_of_ok hm hc]
    exact called_interpretChunk hm _
  | starts => exact .refl
  | freeAll => exact .refl

theorem called_reply (m : Machine) {c : Call} (hc : ∀ settings, c ≠ .create settings) :
    m.heap.Called (m.reply c).2.heap := by
  have hreleased {m' : Machine} (h : m.Releases m') : m.heap.Called m'.heap :=
    m.heap.called_release.trans h.called
  cases c with
  | create settings => exact absurd rfl (hc settings)
  | init => exact hreleased (.init m)
  | takeOutput => exact .refl
  | interpret source =>
    cases hm : m.tornDown with
    | true =>
      rw [reply_of_tornDown hm rfl]
    | false =>
      cases hcompile : compile source with
      | ok c => exact hreleased (.interpret hm hcompile)
      | error errors =>
        rw [reply, interpret_of_error hm hcompile]
  | interpretChunk c =>
    cases hm : m.tornDown with
    | true =>
      rw [reply_of_tornDown hm rfl]
    | false => exact hreleased (.interpretChunk c hm)
  | teardown =>
    cases hm : m.tornDown with
    | true =>
      rw [reply_of_tornDown hm rfl]
    | false =>
      obtain ⟨t, ht⟩ := teardown_of_live hm
      rw [reply, ht]
      exact hreleased (.teardown ht)

theorem Happens.called {m m' : Machine} (h : m.Happens m') : m.heap.Called m'.heap := by
  cases h with
  | call c hc => exact m.called_reply hc
  | starts => exact m.heap.called_release
  | dispatch f => exact (m.filled_dispatch f).called
  | concatenate h => exact (m.fills_concatenate m' h).called
  | intern s => exact m.heap.called_intern s
  | freeAll => exact m.heap.called_release
  | beside h => rw [h]

theorem Becomes.called {m m' : Machine} (h : m.Becomes m') : m.heap.Called m'.heap := by
  induction h with
  | refl => exact .refl
  | tail _ hs ih => exact ih.trans hs.called

section
variable {m : Machine} {id : Nat}

theorem format_of_spent (hd : m.heap.Spent id) :
    m.format (.string id) = s!"<freed string {id}>" := by
  rw [format, Value.textWith, hd.get?]
  rfl

theorem concatenate_of_strings {i j : Nat} {rest : List Value}
    (hv : m.values = .string j :: .string i :: rest)
    (hnone : m.heap.get? i = none ∨ m.heap.get? j = none) :
    m.concatenate = .error .danglingString := by
  rw [concatenate, operands_of_values hv]
  simp only [bind, Except.bind]
  rcases hnone with hi | hj
  · rw [hi]
    rfl
  · rw [hj]
    cases m.heap.get? i <;> rfl

theorem add_of_strings {i j : Nat} {rest : List Value}
    (hv : m.values = .string j :: .string i :: rest) : m.add = m.concatenate := by
  rw [add, operands_of_values hv]
  rfl

/-- An operand without its string is not joined to anything. -/
theorem joined_of_spent (hd : m.heap.Spent id) {v w : Value} {rest : List Value}
    (hv : m.values = w :: v :: rest) (hid : v = .string id ∨ w = .string id) :
    (∃ e, m.concatenate = .error e) ∧ ∃ e, m.add = .error e := by
  have ho := operands_of_values hv
  by_cases hstrings : ∃ i j, v = .string i ∧ w = .string j
  · obtain ⟨i, j, rfl, rfl⟩ := hstrings
    have hnone : m.heap.get? i = none ∨ m.heap.get? j = none := by
      rcases hid with hi | hj
      · cases hi
        exact .inl hd.get?
      · cases hj
        exact .inr hd.get?
    have hc := concatenate_of_strings hv hnone
    exact ⟨⟨_, hc⟩, _, (add_of_strings hv).trans hc⟩
  · rw [concatenate, add, ho]
    rcases hid with rfl | rfl
    · cases w with
      | string j => exact absurd ⟨id, j, rfl, rfl⟩ hstrings
      | _ => exact ⟨⟨_, rfl⟩, _, rfl⟩
    · cases v with
      | string i => exact absurd ⟨i, id, rfl, rfl⟩ hstrings
      | _ => exact ⟨⟨_, rfl⟩, _, rfl⟩

end

/-- A handle that has stood for a string is spent once the heap was released, whatever happens to
the machine before and after. It resolves to nothing and is not given out again, so a value that
was kept is shown as freed, is joined to nothing and equals no string of the heap. -/
theorem released_handles {settings : Settings} {m₀ m m₁ m₂ m₃ : Machine}
    (hnew : create settings = .ok m₀) (h : m₀.Becomes m) {id : Nat} {s : String}
    (hs : m.heap.get? id = some s) (h₁ : m.Becomes m₁) (hr : m₁.Releases m₂)
    (h₃ : m₂.Becomes m₃) :
    m₃.heap.get? id = none ∧ (∀ t, (m₃.heap.intern t).2 ≠ id) ∧
    m₃.format (.string id) = s!"<freed string {id}>" ∧
    (∀ v w rest, m₃.values = w :: v :: rest → v = .string id ∨ w = .string id →
      (∃ e, m₃.concatenate = .error e) ∧ ∃ e, m₃.add = .error e) ∧
    (∀ i j rest, m₃.values = .string j :: .string i :: rest → i = id ∨ j = id →
      m₃.concatenate = .error .danglingString ∧ m₃.add = .error .danglingString) ∧
    ∀ j t, m₃.heap.get? j = some t → (Value.string id).equal (.string j) = false := by
  have hempty : m₀.heap.Coherent := by
    obtain rfl := create_ok hnew
    exact Heap.accounted_empty.toCoherent
  have hc : m.heap.Coherent := hempty.called h.called
  have hgiven : id ≤ m₁.heap.lastId :=
    Nat.le_trans (hc.le_last id s hs) (hc.lastId_le_of_called h₁.called)
  have hafter : m₁.heap.release.Called m₃.heap := hr.called.trans h₃.called
  have hreleased := Heap.coherent_release m₁.heap
  have hd : m₃.heap.Spent id := (Heap.Spent.release hgiven).called hreleased hafter
  refine ⟨hd.get?, hd.ne_intern (hreleased.called hafter), format_of_spent hd,
    fun v w rest => joined_of_spent hd, fun i j rest hv hid => ?_, fun j t ht => ?_⟩
  · have hnone : m₃.heap.get? i = none ∨ m₃.heap.get? j = none := by
      rcases hid with rfl | rfl
      · exact .inl hd.get?
      · exact .inr hd.get?
    have hfails := concatenate_of_strings hv hnone
    exact ⟨hfails, (add_of_strings hv).trans hfails⟩
  · have hne : id ≠ j := by
      rintro rfl
      rw [hd.get?] at ht
      cases ht
    rwa [Value.equal, beq_eq_false_iff_ne]

/-- The value is kept on the stack when the heap is released, and a string is interned then. -/
theorem released_handles_kept :
    let m₀ := new ⟨2, false, false⟩
    let m := m₀.holding "a"
    let kept : Machine := { m.freeAll.2 with
      stack := ⟨2, #[.string 1, .string 1], 2, by decide, by decide⟩ }
    let m₃ := kept.holding "a"
    create ⟨2, false, false⟩ = .ok m₀ ∧ m.heap.get? 1 = some "a" ∧
      m₃.heap.get? 1 = none ∧ (m₃.heap.intern "a").2 ≠ 1 ∧
      m₃.format (.string 1) = "<freed string 1>" ∧
      m₃.concatenate = .error .danglingString := by
  intro m₀ m kept m₃
  have hnew : create ⟨2, false, false⟩ = .ok m₀ := rfl
  have hempty : Heap.empty.Coherent := Heap.accounted_empty.toCoherent
  have hfirst : (Heap.empty.intern "a").2 = 1 := by
    rw [Heap.intern_of_not_mem (by simp [Heap.empty]), hempty.freshId]
    rfl
  have hget : m.heap.get? 1 = some "a" := hfirst ▸ hempty.get?_intern "a"
  have hbeside : m.freeAll.2.Happens kept := .beside rfl
  have h₃ : m.freeAll.2.Becomes m₃ := .tail (.single hbeside) (.intern kept "a")
  obtain ⟨hnone, hnew', hshown, -, hjoined, -⟩ := released_handles hnew (.single (.intern m₀ "a")) hget
    .refl (.freeAll m) h₃
  exact ⟨hnew, hget, hnone, hnew' "a", hshown, (hjoined 1 1 [] rfl (.inl rfl)).1⟩

end Machine

end ExprMachine
