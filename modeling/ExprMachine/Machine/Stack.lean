import ExprMachine.Machine.Value
import ExprMachine.Refusal

/-! A stack of fixed capacity. The slots below `top` are live, and the others are not
seen. Only the slots that have been used are stored. -/

namespace ExprMachine

inductive StackFault where
  | overflow (capacity : Nat)
  | underflow (needed depth : Nat)
deriving DecidableEq, Repr

namespace StackFault

def message : StackFault → String
  | overflow capacity => s!"Stack overflow (capacity {capacity})."
  | underflow needed depth =>
    s!"Stack underflow: needed {needed} value(s) but the stack holds {depth}."

end StackFault

structure Stack where
  capacity : Nat
  /-- The slots that have been used since the stack was last cleared. -/
  used : Array Value
  top : Nat
  top_le : top ≤ used.size
  used_le : used.size ≤ capacity

namespace Stack

def ofCapacity (capacity : Nat) : Stack :=
  ⟨capacity, #[], 0, Nat.le_refl _, Nat.zero_le _⟩

/-- The capacity of the largest stack whose slots, of two words each, can all be addressed. -/
def largestCapacity : Nat := 576460752303423487

/-- The content of a slot, live or not. A slot that has not been used holds nil. -/
def slot? (s : Stack) (i : Nat) : Option Value :=
  if i < s.capacity then some (s.used[i]?.getD .nil) else none

/-- The live values from bottom to top. -/
def toList (s : Stack) : List Value := s.used.toList.take s.top

/-- Nothing stays behind in any slot. -/
def clear (s : Stack) : Stack := ofCapacity s.capacity

def push (s : Stack) (v : Value) : Except StackFault Stack :=
  if h : s.top < s.capacity then
    if hu : s.top < s.used.size then
      .ok ⟨s.capacity, s.used.set s.top v, s.top + 1, by rw [Array.size_set]; exact hu,
        by rw [Array.size_set]; exact s.used_le⟩
    else
      have he : s.top = s.used.size := Nat.le_antisymm s.top_le (Nat.le_of_not_lt hu)
      .ok ⟨s.capacity, s.used.push v, s.top + 1, Nat.le_of_eq (by rw [Array.size_push, he]),
        by rw [Array.size_push, ← he]; exact h⟩
  else .error (.overflow s.capacity)

def pop? (s : Stack) : Option (Value × Stack) :=
  match h : s.top with
  | 0 => none
  | n + 1 =>
    have hn : n < s.used.size := Nat.lt_of_lt_of_le (h ▸ Nat.lt_succ_self n) s.top_le
    some (s.used[n], ⟨s.capacity, s.used, n, Nat.le_of_lt hn, s.used_le⟩)

def drop (s : Stack) (n : Nat) : Stack :=
  ⟨s.capacity, s.used, s.top - n, Nat.le_trans (Nat.sub_le _ _) s.top_le, s.used_le⟩

/-- The value that has `distance` values above it. -/
def peek? (s : Stack) (distance : Nat) : Option Value :=
  if distance < s.top then s.used[s.top - distance - 1]? else none

def ensureDepth (s : Stack) (needed : Nat) : Except StackFault Unit :=
  if s.top < needed then .error (.underflow needed s.top) else .ok ()

theorem length_toList (s : Stack) : s.toList.length = s.top := by
  rw [toList, List.length_take, Array.length_toList]
  exact Nat.min_eq_left s.top_le

theorem toList_drop (s : Stack) (n : Nat) : (s.drop n).toList = s.toList.take (s.top - n) := by
  rw [toList, toList, List.take_take, drop]
  dsimp only
  rw [Nat.min_eq_left (Nat.sub_le _ _)]

theorem toList_push {s t : Stack} {v : Value} (h : s.push v = .ok t) :
    t.toList = s.toList ++ [v] := by
  unfold push at h
  split at h
  · split at h
    · next hu =>
      cases h
      rw [toList, toList, Array.toList_set, List.take_succ_eq_append_getElem (by simpa using hu),
        List.take_set_of_le (Nat.le_refl _), List.getElem_set_self]
    · next hu =>
      cases h
      have he : s.used.toList.length ≤ s.top := Nat.le_of_not_lt hu
      rw [toList, toList, Array.toList_push, List.take_of_length_le he,
        List.take_of_length_le (by rw [List.length_append]; exact Nat.succ_le_succ he)]
  · cases h

theorem toList_pop? {s t : Stack} {v : Value} (h : s.pop? = some (v, t)) :
    s.toList = t.toList ++ [v] := by
  unfold pop? at h
  split at h
  · cases h
  · next n hn =>
    cases h
    have hs : n < s.used.size := Nat.lt_of_lt_of_le (hn ▸ Nat.lt_succ_self n) s.top_le
    have ht : s.toList = s.used.toList.take (n + 1) := congrArg s.used.toList.take hn
    rw [ht, toList, List.take_succ_eq_append_getElem (by simpa using hs), Array.getElem_toList]

theorem peek?_eq (s : Stack) (distance : Nat) :
    s.peek? distance = s.toList.reverse[distance]? := by
  unfold peek?
  split
  · next h =>
    rw [List.getElem?_reverse (by rwa [length_toList]), length_toList, toList,
      List.getElem?_take_of_lt (by omega), Array.getElem?_toList, Nat.sub_right_comm]
  · next h =>
    rw [List.getElem?_eq_none (by rw [List.length_reverse, length_toList]; omega)]

end Stack

end ExprMachine
