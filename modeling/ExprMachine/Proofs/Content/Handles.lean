import ExprMachine.Machine.Basic
import ExprMachine.Proofs.Content.Machine
import ExprMachine.Proofs.Machine.Interning

/-! What a handle stands for, and why comparing handles compares strings. -/

namespace ExprMachine

namespace Heap

/-- A value with the string that its handle stands for. -/
def content? (h : Heap) : Value → Option Datum
  | .nil => some .nil
  | .boolean b => some (.boolean b)
  | .number x => some (.number x)
  | .string id => (h.get? id).map .text

variable {h h' : Heap} {v w : Value} {a b : Datum}

theorem Grows.content? (hg : h.Grows h') (hv : h.content? v = some a) :
    h'.content? v = some a := by
  cases v with
  | string id =>
    obtain ⟨s, hs, rfl⟩ := Option.map_eq_some_iff.mp hv
    exact Option.map_eq_some_iff.mpr ⟨s, hg id s hs, rfl⟩
  | _ => exact hv

theorem content?_cases (hv : h.content? v = some a) :
    (v = .nil ∧ a = .nil) ∨ (∃ b, v = .boolean b ∧ a = .boolean b) ∨
      (∃ x, v = .number x ∧ a = .number x) ∨
      ∃ id s, v = .string id ∧ a = .text s ∧ h.get? id = some s := by
  cases v with
  | nil => cases hv; exact .inl ⟨rfl, rfl⟩
  | boolean b => cases hv; exact .inr (.inl ⟨b, rfl, rfl⟩)
  | number x => cases hv; exact .inr (.inr (.inl ⟨x, rfl, rfl⟩))
  | string id =>
    obtain ⟨s, hs, rfl⟩ := Option.map_eq_some_iff.mp hv
    exact .inr (.inr (.inr ⟨id, s, rfl, rfl, hs⟩))

theorem content?_text {s : String} (hv : h.content? v = some (.text s)) :
    ∃ id, v = .string id ∧ h.get? id = some s := by
  rcases content?_cases hv with ⟨_, ht⟩ | ⟨_, _, ht⟩ | ⟨_, _, ht⟩ | ⟨id, t, rfl, ht, hs⟩ <;>
    cases ht
  exact ⟨id, rfl, hs⟩

theorem isFalsey_of_content? (hv : h.content? v = some a) : v.isFalsey = a.isFalsey := by
  rcases content?_cases hv with ⟨rfl, rfl⟩ | ⟨_, rfl, rfl⟩ | ⟨_, rfl, rfl⟩ | ⟨_, _, rfl, rfl, _⟩ <;>
    rfl

/-- As equal strings share a handle, comparing handles compares strings. -/
theorem Coherent.equal (hc : h.Coherent) (hv : h.content? v = some a)
    (hw : h.content? w = some b) : v.equal w = a.equal b := by
  rcases content?_cases hv with ⟨rfl, rfl⟩ | ⟨_, rfl, rfl⟩ | ⟨_, rfl, rfl⟩ | ⟨i, s, rfl, rfl, hs⟩ <;>
    rcases content?_cases hw with ⟨rfl, rfl⟩ | ⟨_, rfl, rfl⟩ | ⟨_, rfl, rfl⟩ | ⟨j, t, rfl, rfl, ht⟩ <;>
    try rfl
  rw [Value.equal, Datum.equal, Bool.eq_iff_iff, beq_iff_eq, beq_iff_eq]
  constructor
  · rintro rfl
    exact Option.some.inj (hs.symm.trans ht)
  · rintro rfl
    exact hc.eq_of_get? hs ht

end Heap

theorem Machine.format_of_content? {m : Machine} {v : Value} {a : Datum}
    (hv : m.heap.content? v = some a) : m.format v = a.toText := by
  rcases Heap.content?_cases hv with
    ⟨rfl, rfl⟩ | ⟨b, rfl, rfl⟩ | ⟨_, rfl, rfl⟩ | ⟨id, s, rfl, rfl, hs⟩
  · rfl
  · cases b <;> rfl
  · rfl
  · simp [format, Value.textWith, hs, Datum.toText]

end ExprMachine
