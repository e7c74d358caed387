import ExprMachine.Proofs.Calls
import ExprMachine.Proofs.Machine.Values

/-! A stack of fixed capacity answers all calls as a list of so many values at most does. The
buffer keeps what has been popped, but no answer depends on it. -/

namespace ExprMachine

inductive StackCall where
  | push (v : Value)
  | pop
  | peek (distance : Nat)
  | ensureDepth (needed : Nat)
  | clear
  | size
  | iterate

inductive StackAnswer where
  | done
  | value (v : Value)
  | missing
  | size (n : Nat)
  | values (vs : List Value)
  | fault (e : StackFault)
  | refused (e : Refusal)

namespace Stack

def answer (s : Stack) : StackCall → StackAnswer × Stack
  | .push v =>
    match s.push v with
    | .ok t => (.done, t)
    | .error e => (.fault e, s)
  | .pop =>
    match s.pop? with
    | some (v, t) => (.value v, t)
    | none => (.refused .popEmpty, s)
  | .peek distance =>
    match s.peek? distance with
    | some v => (.value v, s)
    | none => (.missing, s)
  | .ensureDepth needed =>
    match s.ensureDepth needed with
    | .ok () => (.done, s)
    | .error e => (.fault e, s)
  | .clear => (.done, s.clear)
  | .size => (.size s.top, s)
  | .iterate => (.values s.toList, s)

/-- The content of all slots, from the bottom of the buffer to its end. -/
def slots (s : Stack) : List Value :=
  s.used.toList ++ List.replicate (s.capacity - s.used.size) .nil

/-- A stack as its capacity and its live values, the topmost first. -/
def view (s : Stack) : Nat × List Value := (s.capacity, s.toList.reverse)

end Stack

namespace StackCall

/-- What a list of values is answered, the topmost first, that may grow to a capacity. -/
def onList : Nat × List Value → StackCall → StackAnswer × (Nat × List Value)
  | (capacity, vs), push v =>
    if vs.length < capacity then (.done, (capacity, v :: vs))
    else (.fault (.overflow capacity), (capacity, vs))
  | (capacity, v :: vs), pop => (.value v, (capacity, vs))
  | (capacity, []), pop => (.refused .popEmpty, (capacity, []))
  | (capacity, vs), peek distance =>
    match vs[distance]? with
    | some v => (.value v, (capacity, vs))
    | none => (.missing, (capacity, vs))
  | (capacity, vs), ensureDepth needed =>
    if needed ≤ vs.length then (.done, (capacity, vs))
    else (.fault (.underflow needed vs.length), (capacity, vs))
  | (capacity, _), clear => (.done, (capacity, []))
  | (capacity, vs), size => (.size vs.length, (capacity, vs))
  | (capacity, vs), iterate => (.values vs.reverse, (capacity, vs))

theorem capacity_onList (capacity : Nat) (vs : List Value) (call : StackCall) :
    (onList (capacity, vs) call).2.1 = capacity := by
  cases call with
  | push v => rw [onList]; split <;> rfl
  | pop => cases vs <;> rfl
  | peek distance => rw [onList]; split <;> rfl
  | ensureDepth needed => rw [onList]; split <;> rfl
  | clear | size | iterate => rfl

/-- What a call writes to a buffer of which so many slots are live. A full buffer has no slot to
push to. -/
def write (top : Nat) (slots : List Value) : StackCall → List Value
  | push v => slots.set top v
  | clear => List.replicate slots.length .nil
  | _ => slots

end StackCall

namespace Stack

variable (s : Stack)

theorem length_slots : s.slots.length = s.capacity := by
  have := s.used_le
  simp only [slots, List.length_append, Array.length_toList, List.length_replicate]
  omega

theorem slot?_eq (i : Nat) : s.slot? i = s.slots[i]? := by
  have hle := s.used_le
  unfold slot?
  by_cases hi : i < s.used.size
  · rw [if_pos (by omega), slots, List.getElem?_append_left (by simpa using hi)]
    simp [hi]
  · rw [slots, List.getElem?_append_right (by simpa using hi), List.getElem?_replicate]
    simp only [Array.length_toList, Array.getElem?_eq_none (Nat.le_of_not_lt hi)]
    split <;> split <;> first | rfl | omega

theorem toList_eq_take : s.toList = s.slots.take s.top := by
  rw [toList, slots, List.take_append_of_le_length (by simpa using s.top_le)]

theorem slots_clear : s.clear.slots = List.replicate s.capacity .nil := rfl

theorem slots_push {t : Stack} {v : Value} (h : s.push v = .ok t) :
    t.slots = s.slots.set s.top v := by
  unfold push at h
  split at h
  · next hlt =>
    split at h
    · next hu =>
      cases h
      simp only [slots, Array.toList_set, Array.size_set]
      rw [List.set_append_left _ _ (by simpa using hu)]
    · next hu =>
      cases h
      have hle := s.top_le
      have he : s.used.toList.length = s.top := by
        rw [Array.length_toList]
        omega
      have hrest : s.capacity - s.used.size = s.capacity - (s.used.size + 1) + 1 := by omega
      have hset : s.slots.set s.top v = s.used.toList ++ v ::
          List.replicate (s.capacity - (s.used.size + 1)) .nil := by
        rw [slots, List.set_append_right _ _ (Nat.le_of_eq he), he, Nat.sub_self, hrest,
          List.replicate_succ, List.set_cons_zero]
      rw [hset]
      simp [slots]
  · cases h

theorem slots_pop {t : Stack} {v : Value} (h : s.pop? = some (v, t)) : t.slots = s.slots := by
  unfold pop? at h
  split at h <;> cases h
  rfl

theorem slots_answer (call : StackCall) :
    (s.answer call).2.slots = call.write s.top s.slots := by
  cases call with
  | push v =>
    simp only [answer, StackCall.write]
    by_cases hlt : s.top < s.capacity
    · obtain ⟨t, ht, -⟩ := push_of_lt hlt v
      simp only [ht, s.slots_push ht]
    · rw [push_of_full hlt, List.set_eq_of_length_le (by rw [length_slots]; omega)]
  | pop =>
    simp only [answer, StackCall.write]
    cases hp : s.pop? with
    | none => rfl
    | some r => exact s.slots_pop hp
  | peek distance =>
    simp only [answer, StackCall.write]
    cases s.peek? distance <;> rfl
  | ensureDepth needed =>
    simp only [answer, StackCall.write]
    cases s.ensureDepth needed <;> rfl
  | clear => rw [StackCall.write, length_slots, answer, slots_clear]
  | size => rfl
  | iterate => rfl

theorem capacity_pop {t : Stack} {v : Value} (h : s.pop? = some (v, t)) :
    t.capacity = s.capacity := by
  unfold pop? at h
  split at h <;> cases h
  rfl

theorem pop?_eq_none (h : s.pop? = none) : s.toList = [] := by
  unfold pop? at h
  split at h
  · next ht => rw [← List.length_eq_zero_iff, length_toList, ht]
  · cases h

/-- A stack is answered as its list is. -/
theorem onList_view (call : StackCall) :
    StackCall.onList s.view call = ((s.answer call).1, (s.answer call).2.view) := by
  have hlength : s.toList.reverse.length = s.top := by rw [List.length_reverse, length_toList]
  cases call with
  | push v =>
    simp only [StackCall.onList, view, answer, hlength]
    by_cases hlt : s.top < s.capacity
    · obtain ⟨t, ht, hc⟩ := push_of_lt hlt v
      simp only [if_pos hlt, ht, hc, toList_push ht, List.reverse_append, List.reverse_singleton,
        List.singleton_append]
    · simp only [if_neg hlt, push_of_full hlt]
  | pop =>
    cases hp : s.pop? with
    | none => simp only [view, answer, hp, s.pop?_eq_none hp, List.reverse_nil, StackCall.onList]
    | some r =>
      simp only [view, answer, hp, toList_pop? hp, capacity_pop s hp, List.reverse_append,
        List.reverse_singleton, List.singleton_append, StackCall.onList]
  | peek distance =>
    simp only [StackCall.onList, view, answer, peek?_eq]
    cases s.toList.reverse[distance]? <;> rfl
  | ensureDepth needed =>
    simp only [StackCall.onList, view, answer, hlength, ensureDepth]
    by_cases hlt : s.top < needed
    · simp only [if_pos hlt, if_neg (Nat.not_le.mpr hlt)]
    · simp only [if_neg hlt, if_pos (Nat.le_of_not_lt hlt)]
  | clear => rfl
  | size => simp only [StackCall.onList, view, answer, hlength]
  | iterate => simp only [StackCall.onList, view, answer, List.reverse_reverse]

theorem run_eq_onList (calls : List StackCall) :
    Calls.run StackCall.onList s.view calls =
      ((Calls.run answer s calls).1, (Calls.run answer s calls).2.view) :=
  Calls.run_view onList_view s calls

theorem capacity_answer (call : StackCall) : (s.answer call).2.capacity = s.capacity := by
  have hv := congrArg (fun r => r.2.1) (s.onList_view call)
  rw [StackCall.capacity_onList] at hv
  exact hv.symm

/-- A new stack answers any calls as an empty list does that may grow to its capacity, and then
holds the values of the list. Its buffer has all the slots of the capacity, of which the live ones
come first. A call writes to the slot that it pushes to, and only `clear` to others, which then all
hold nil. What stays in the buffer above the live values changes no later answer. -/
theorem answers_as_list (capacity : Nat) (calls : List StackCall) :
    let (answers, s) := Calls.run answer (ofCapacity capacity) calls
    let (answers', list) := Calls.run StackCall.onList (capacity, []) calls
    answers = answers' ∧ list = (capacity, s.toList.reverse) ∧ s.toList.length ≤ capacity ∧
    (∀ i, s.slot? i = s.slots[i]?) ∧ s.slots.length = capacity ∧ s.slots.take s.top = s.toList ∧
    (∀ call, (s.answer call).2.slots = call.write s.top s.slots) ∧
    s.clear.slots = List.replicate capacity .nil ∧
    ∀ t : Stack, t.view = s.view → ∀ later,
      (Calls.run answer t later).1 = (Calls.run answer s later).1 := by
  obtain ⟨s, hs⟩ : ∃ s, (Calls.run answer (ofCapacity capacity) calls).2 = s := ⟨_, rfl⟩
  have hrun := run_eq_onList (ofCapacity capacity) calls
  have hcapacity : s.capacity = capacity := by
    rw [← hs]
    exact Calls.run_keeps (p := fun t : Stack => t.capacity = capacity)
      (fun (t : Stack) call ht => (t.capacity_answer call).trans ht) rfl calls
  rw [show (ofCapacity capacity).view = (capacity, []) from rfl] at hrun
  rw [hrun]
  simp only [hs]
  refine ⟨trivial, by rw [view, hcapacity], ?_, s.slot?_eq, ?_, s.toList_eq_take.symm,
    s.slots_answer, ?_, ?_⟩
  · rw [length_toList, ← hcapacity]
    exact Nat.le_trans s.top_le s.used_le
  · rw [length_slots, hcapacity]
  · rw [slots_clear, hcapacity]
  · intro t ht later
    have ht' := t.run_eq_onList later
    rw [ht, s.run_eq_onList later] at ht'
    exact (congrArg Prod.fst ht').symm

/-- A handle that was popped stays in the buffer, and is not seen. -/
theorem answers_as_list_popped :
    let s := (Calls.run answer (ofCapacity 2) [.push (.string 7), .pop]).2
    s.slots = [.string 7, .nil] ∧ (ofCapacity 2).slots = [.nil, .nil] ∧
    (ofCapacity 2).view = s.view ∧ ∀ later,
      (Calls.run answer (ofCapacity 2) later).1 = (Calls.run answer s later).1 :=
  ⟨rfl, rfl, rfl, (answers_as_list 2 [.push (.string 7), .pop]).2.2.2.2.2.2.2.2 _ rfl⟩

example : (Calls.run answer (ofCapacity 1)
    [.pop, .push (.boolean true), .push .nil, .peek 0, .peek 1, .ensureDepth 2, .pop, .iterate]).1 =
    [.refused .popEmpty, .done, .fault (.overflow 1), .value (.boolean true), .missing,
      .fault (.underflow 2 1), .value (.boolean true), .values []] := rfl

end Stack

end ExprMachine
