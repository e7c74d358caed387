import ExprMachine.Machine.Operators

/-! The operations of a machine in terms of the values on its stack. -/

namespace ExprMachine

theorem Stack.push_of_lt {s : Stack} (h : s.top < s.capacity) (v : Value) :
    ∃ t, s.push v = .ok t ∧ t.capacity = s.capacity := by
  unfold push
  rw [dif_pos h]
  split
  · exact ⟨_, rfl, rfl⟩
  · exact ⟨_, rfl, rfl⟩

theorem Stack.push_of_full {s : Stack} (h : ¬ s.top < s.capacity) (v : Value) :
    s.push v = .error (.overflow s.capacity) := dif_neg h

namespace Machine

/-- The values on the stack, the topmost first. -/
def values (m : Machine) : List Value := m.stack.toList.reverse

theorem length_values (m : Machine) : m.values.length = m.stack.top := by
  rw [values, List.length_reverse, Stack.length_toList]

theorem length_values_le (m : Machine) : m.values.length ≤ m.stack.capacity := by
  rw [length_values]
  exact Nat.le_trans m.stack.top_le m.stack.used_le

theorem push_of_lt {m : Machine} (h : m.values.length < m.stack.capacity) (v : Value) :
    ∃ t, m.push v = .ok { m with stack := t } ∧ t.capacity = m.stack.capacity ∧
      t.toList.reverse = v :: m.values := by
  obtain ⟨t, ht, hc⟩ := Stack.push_of_lt (by rwa [length_values] at h) v
  refine ⟨t, by simp only [push, ht, withStack], hc, ?_⟩
  rw [Stack.toList_push ht, List.reverse_append]
  rfl

theorem push_of_full {m : Machine} (h : ¬ m.values.length < m.stack.capacity) (v : Value) :
    m.push v = .error (.stack (.overflow m.stack.capacity)) := by
  rw [length_values] at h
  simp only [push, Stack.push_of_full h, withStack]

theorem values_drop (m : Machine) (n : Nat) :
    (m.stack.drop n).toList.reverse = m.values.drop n := by
  rw [Stack.toList_drop, values, ← Stack.length_toList, List.drop_reverse]

/-- As values make room before one is pushed, there is no overflow. -/
theorem replace_of_le {m : Machine} {n : Nat} (hn : 0 < n) (h : n ≤ m.values.length)
    (v : Value) : ∃ t, m.replace n v = .ok { m with stack := t } ∧
      t.capacity = m.stack.capacity ∧ t.toList.reverse = v :: m.values.drop n := by
  have hle := m.length_values_le
  have hd : (m.stack.drop n).toList.length < m.stack.capacity := by
    rw [← List.length_reverse, values_drop, List.length_drop]
    omega
  obtain ⟨t, ht, hc⟩ := Stack.push_of_lt (s := m.stack.drop n)
    (by rwa [Stack.length_toList] at hd) v
  refine ⟨t, by simp only [replace, ht, withStack], hc, ?_⟩
  rw [Stack.toList_push ht, List.reverse_append, values_drop]
  rfl

theorem peek_of_lt {m : Machine} {n : Nat} {v : Value} (h : m.values[n]? = some v) :
    m.peek n = .ok v := by
  simp only [peek, Stack.peek?_eq]
  rw [values] at h
  rw [h]

theorem peek_of_short {m : Machine} {n : Nat} (h : m.values.length ≤ n) :
    m.peek n = .error (.stack (.underflow (n + 1) m.values.length)) := by
  have hn : m.stack.peek? n = none := by
    rw [Stack.peek?_eq]
    exact List.getElem?_eq_none h
  simp only [peek, hn, length_values]

theorem ensureDepth_of_le {m : Machine} {n : Nat} (h : n ≤ m.values.length) :
    m.ensureDepth n = .ok () := by
  rw [length_values] at h
  simp only [ensureDepth, Stack.ensureDepth, if_neg (Nat.not_lt.mpr h)]

theorem ensureDepth_of_short {m : Machine} {n : Nat} (h : m.values.length < n) :
    m.ensureDepth n = .error (.stack (.underflow n m.values.length)) := by
  rw [length_values] at h ⊢
  simp only [ensureDepth, Stack.ensureDepth, if_pos h]

theorem operands_of_values {m : Machine} {left right : Value} {rest : List Value}
    (h : m.values = right :: left :: rest) : m.operands = .ok (left, right) := by
  have h₀ : m.values[0]? = some right := by rw [h]; rfl
  have h₁ : m.values[1]? = some left := by rw [h]; rfl
  simp only [operands, ensureDepth_of_le (show 2 ≤ m.values.length by simp [h]),
    peek_of_lt h₀, peek_of_lt h₁]
  rfl

theorem operands_of_short {m : Machine} (h : m.values.length < 2) :
    m.operands = .error (.stack (.underflow 2 m.values.length)) := by
  simp only [operands, ensureDepth_of_short h]
  rfl

end Machine

end ExprMachine
