import ExprMachine.Machine.Heap
import Std.Data.HashMap.Lemmas

/-! Interning: the two maps of a heap stay inverse to each other, and what a handle stands
for never changes while the heap grows. -/

namespace ExprMachine

namespace Heap

/-- The maps are inverse to each other, and no handle lies above the last one given out. -/
structure Coherent (h : Heap) : Prop where
  inverse : ∀ (s : String) (id : Nat), h.interned[s]? = some id ↔ h.values[id]? = some s
  le_last : ∀ (id : Nat) (s : String), h.values[id]? = some s → id ≤ h.lastId

def Grows (h h' : Heap) : Prop := ∀ id s, h.get? id = some s → h'.get? id = some s

theorem Grows.refl (h : Heap) : h.Grows h := fun _ _ hs => hs

theorem coherent_release (h : Heap) : h.release.Coherent where
  inverse s id := by simp [release]
  le_last id s := by simp [release]

/-- The first number that is tried is free. -/
theorem Coherent.freshId {h : Heap} (hc : h.Coherent) : h.freshId = h.lastId + 1 := by
  have hfree : h.values.contains (h.lastId + 1) = false := by
    rw [Std.HashMap.contains_eq_isSome_getElem?]
    cases hs : h.values[h.lastId + 1]? with
    | none => rfl
    | some s => exact absurd (hc.le_last _ _ hs) (by omega)
  unfold Heap.freshId
  cases h.values.size with
  | zero => rfl
  | succ n => simp [firstFree, hfree]

theorem Coherent.eq_of_get? {h : Heap} (hc : h.Coherent) {i j : Nat} {s : String}
    (hi : h.get? i = some s) (hj : h.get? j = some s) : i = j := by
  have h₁ := (hc.inverse s i).mpr hi
  rw [(hc.inverse s j).mpr hj] at h₁
  exact (Option.some.inj h₁).symm

theorem Coherent.intern {h h' : Heap} (hc : h.Coherent) {s : String} {id : Nat}
    (hi : h.intern s = (h', id)) : h'.Coherent ∧ h.Grows h' ∧ h'.get? id = some s := by
  unfold Heap.intern at hi
  split at hi
  · next i hs =>
    cases hi
    exact ⟨hc, .refl h, (hc.inverse s _).mp hs⟩
  · next hs =>
    cases hi
    rw [hc.freshId]
    have hnew : h.values[h.lastId + 1]? = none := by
      cases hv : h.values[h.lastId + 1]? with
      | none => rfl
      | some t => exact absurd (hc.le_last _ _ hv) (by omega)
    refine ⟨⟨?_, ?_⟩, ?_, by simp [get?]⟩
    · intro t i
      simp only [Std.HashMap.getElem?_insert, beq_iff_eq]
      by_cases hst : s = t <;> by_cases hli : h.lastId + 1 = i
      · simp [hst, hli]
      · subst hst
        simp only [if_true, hli, if_false, Option.some.injEq]
        rw [← hc.inverse s i, hs]
        simp
      · subst hli
        simp only [hst, if_false, if_true, Option.some.injEq]
        rw [hc.inverse t (h.lastId + 1), hnew]
        simp
      · simp only [hst, hli, if_false]
        exact hc.inverse t i
    · intro i t
      simp only [Std.HashMap.getElem?_insert, beq_iff_eq]
      split
      · omega
      · exact fun ht => Nat.le_succ_of_le (hc.le_last i t ht)
    · intro i t ht
      simp only [get?, Std.HashMap.getElem?_insert, beq_iff_eq] at ht ⊢
      rw [if_neg, ht]
      rintro rfl
      rw [hnew] at ht
      cases ht

end Heap

end ExprMachine
