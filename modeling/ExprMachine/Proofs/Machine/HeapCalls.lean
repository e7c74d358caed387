import ExprMachine.Proofs.Machine.Filling

/-! What calls in any order make of an empty heap. The heap holds the strings interned since it
was last released, each once and under one handle, and the handles are counted up. -/

namespace ExprMachine

inductive HeapCall where
  | intern (s : String)
  | release
deriving DecidableEq

namespace Heap

theorem Coherent.get?_intern {h : Heap} (hc : h.Coherent) (s : String) :
    (h.intern s).1.get? (h.intern s).2 = some s :=
  (hc.intern rfl).2.2

theorem Coherent.grows_intern {h : Heap} (hc : h.Coherent) (s : String) :
    h.Grows (h.intern s).1 :=
  (hc.intern rfl).2.1

theorem Coherent.coherent_intern {h : Heap} (hc : h.Coherent) (s : String) :
    (h.intern s).1.Coherent :=
  (hc.intern rfl).1

/-- A string that is held has the handle that resolves to it, and no other string gets it. -/
theorem Coherent.intern_eq_iff {h : Heap} (hc : h.Coherent) {id : Nat} {s : String}
    (hs : h.get? id = some s) (t : String) : (h.intern t).2 = id ↔ t = s := by
  have ht := hc.get?_intern t
  have hkept := hc.grows_intern t id s hs
  constructor
  · intro he
    rw [he, hkept] at ht
    exact (Option.some.inj ht).symm
  · rintro rfl
    exact (hc.coherent_intern t).eq_of_get? ht hkept

theorem intern_of_not_mem {h : Heap} {s : String} (hs : s ∉ h.interned) : h.intern s =
    (⟨h.values.insert h.freshId s, h.interned.insert s h.freshId, h.freshId,
      h.bytes + s.utf8ByteSize⟩, h.freshId) := by
  unfold Heap.intern
  rw [Std.HashMap.getElem?_eq_none hs]

theorem Coherent.fresh {h : Heap} (hc : h.Coherent) :
    h.values.contains (h.lastId + 1) = false := by
  rw [Std.HashMap.contains_eq_isSome_getElem?]
  cases hs : h.values[h.lastId + 1]? with
  | none => rfl
  | some s => exact absurd (hc.le_last _ _ hs) (by omega)

def apply (h : Heap) : HeapCall → Heap
  | .intern s => (h.intern s).1
  | .release => h.release

/-- The heap that calls have made of an empty one, the latest call first. -/
def after : List HeapCall → Heap
  | [] => empty
  | c :: calls => (after calls).apply c

end Heap

namespace HeapCall

/-- The strings interned since the last release. -/
def held : List HeapCall → Finset String
  | [] => ∅
  | intern s :: calls => insert s (held calls)
  | release :: _ => ∅

/-- How often a string was interned that was not held. -/
def allocations : List HeapCall → Nat
  | [] => 0
  | intern s :: calls => if s ∈ held calls then allocations calls else allocations calls + 1
  | release :: calls => allocations calls

end HeapCall

namespace Heap

open HeapCall

theorem accounted_after (calls : List HeapCall) : (after calls).Accounted := by
  induction calls with
  | nil => exact accounted_empty
  | cons c calls ih =>
    cases c with
    | intern s => exact ih.intern s
    | release => exact accounted_release _

/-- What the counts of a heap come to. -/
structure Counts (h : Heap) (held : Finset String) (allocated : Nat) : Prop where
  mem_interned : ∀ s, s ∈ h.interned ↔ s ∈ held
  size : h.size = held.card
  bytes : h.bytes = ∑ s ∈ held, s.utf8ByteSize
  lastId : h.lastId = allocated

theorem counts_release (h : Heap) : h.release.Counts ∅ h.lastId where
  mem_interned s := by simp [release]
  size := by simp [Heap.size, release]
  bytes := rfl
  lastId := rfl

theorem Counts.intern_of_mem {h : Heap} {held : Finset String} {n : Nat} (hn : h.Counts held n)
    {s : String} (hs : s ∈ held) : (h.intern s).1.Counts (insert s held) n := by
  rw [Heap.intern_of_mem ((hn.mem_interned s).mpr hs), Finset.insert_eq_of_mem hs]
  exact hn

theorem Counts.intern_of_not_mem {h : Heap} {held : Finset String} {n : Nat}
    (hn : h.Counts held n) (hc : h.Coherent) {s : String} (hs : s ∉ held) :
    (h.intern s).1.Counts (insert s held) (n + 1) := by
  rw [Heap.intern_of_not_mem fun hi => hs ((hn.mem_interned s).mp hi), hc.freshId]
  have hfresh : h.lastId + 1 ∉ h.values := by
    rw [← Std.HashMap.contains_eq_false_iff_not_mem]
    exact hc.fresh
  constructor
  · intro t
    rw [Std.HashMap.mem_insert, beq_iff_eq, Finset.mem_insert, hn.mem_interned, eq_comm]
  · rw [Heap.size, Std.HashMap.size_insert, if_neg hfresh, Finset.card_insert_of_notMem hs]
    exact congrArg (· + 1) hn.size
  · rw [Finset.sum_insert hs, ← hn.bytes]
    exact Nat.add_comm _ _
  · exact congrArg (· + 1) hn.lastId

theorem counts_after (calls : List HeapCall) :
    (after calls).Counts (held calls) (allocations calls) := by
  induction calls with
  | nil => exact counts_release empty
  | cons c calls ih =>
    cases c with
    | intern s =>
      rw [held, allocations]
      split
      · next hs => exact ih.intern_of_mem hs
      · next hs => exact ih.intern_of_not_mem (accounted_after calls).toCoherent hs
    | release =>
      have hr := counts_release (after calls)
      rwa [ih.lastId] at hr

/-- Strings that are interned one after the other leave the handles as they are. -/
theorem grows_after (strings : List String) (calls : List HeapCall) :
    (after calls).Grows (after (strings.map .intern ++ calls)) := by
  induction strings with
  | nil => exact .refl _
  | cons s strings ih =>
    intro id t ht
    exact (accounted_after _).grows_intern s id t (ih id t ht)

/-- After any calls on an empty heap: a string that is interned is found under its handle. Two
strings interned without a release between them get one handle exactly if they are equal, and no
handle that is in use is changed by this. The two maps are inverse to each other, the heap holds
the strings interned since the last release and counts them and their bytes, and the first number
that is tried as a new handle is free. The handles are counted up from 1, one an allocation. -/
theorem interned_strings (calls : List HeapCall) :
    let h := after calls
    (∀ s, (h.intern s).1.get? (h.intern s).2 = some s) ∧
    (∀ s (strings : List String) t, ((after (strings.map .intern ++ .intern s :: calls)).intern t).2 =
      (h.intern s).2 ↔ t = s) ∧
    (∀ (s : String) (id : Nat), h.interned[s]? = some id ↔ h.values[id]? = some s) ∧
    (∀ s, (∃ id, h.get? id = some s) ↔ s ∈ held calls) ∧
    h.size = (held calls).card ∧
    (∀ m : Machine, m.heap = h → m.freeAll.1 = (held calls).card ∧
      m.freeAll.2.heap = after (.release :: calls)) ∧
    h.bytes = ∑ s ∈ held calls, s.utf8ByteSize ∧
    (∀ id s, h.get? id = some s → ∀ t,
      (h.intern t).1.get? id = some s ∧ ((h.intern t).1.intern s).2 = id) ∧
    (h.values.contains (h.lastId + 1) = false ∧ h.freshId = h.lastId + 1) ∧
    h.lastId = allocations calls ∧
    ∀ id s, h.get? id = some s → id ≤ allocations calls := by
  intro h
  have hc : h.Coherent := (accounted_after calls).toCoherent
  have hn : h.Counts (held calls) (allocations calls) := counts_after calls
  refine ⟨hc.get?_intern, fun s strings t => ?_, hc.inverse, fun s => ?_, hn.size, ?_, hn.bytes,
    fun id s hs t => ?_, ⟨hc.fresh, hc.freshId⟩, hn.lastId, fun id s hs => ?_⟩
  · have hkept := grows_after strings (.intern s :: calls) _ s (hc.get?_intern s)
    exact (accounted_after _).intern_eq_iff hkept t
  · rw [← hn.mem_interned, Std.HashMap.mem_iff_isSome_getElem?, Option.isSome_iff_exists]
    exact exists_congr fun id => (hc.inverse s id).symm
  · rintro m hm
    exact ⟨by rw [← hn.size, ← hm]; rfl, by rw [Machine.freeAll, hm]; rfl⟩
  · have hkept := hc.grows_intern t id s hs
    exact ⟨hkept, ((hc.coherent_intern t).intern_eq_iff hkept s).mpr rfl⟩
  · rw [← hn.lastId]
    exact hc.le_last id s hs

end Heap

end ExprMachine
