import ExprMachine.Proofs.Content.Handles
import ExprMachine.Proofs.Machine.Values

/-! The operators of the machine with a heap agree with those of the machine without one. -/

namespace ExprMachine

namespace Machine

/-- The machine `m` is what has become of `m₀` when the machine without a heap is at `s`. -/
structure Shows (m₀ m : Machine) (s : ContentMachine) : Prop where
  settings : m.settings = m₀.settings
  capacity : m.stack.capacity = s.capacity
  coherent : m.heap.Coherent
  stack : m.values.map m.heap.content? = s.stack.map some
  output : m.output.toList = m₀.output.toList ++ s.output
  console : m.console.toList =
    m₀.console.toList ++ if m₀.settings.echo then s.output else []

/-- Either both results are machines and one shows the other, or both are the same fault. -/
def Agrees (m₀ : Machine) : Except Fault Machine → Except Fault ContentMachine → Prop
  | .ok m, .ok s => m₀.Shows m s
  | .error e, .error e' => e = e'
  | _, _ => False

namespace Shows

variable {m₀ m : Machine} {s : ContentMachine}

theorem length (h : m₀.Shows m s) : m.values.length = s.stack.length := by
  have hl := congrArg List.length h.stack
  rwa [List.length_map, List.length_map] at hl

theorem stack_toList (h : m₀.Shows m s) :
    m.stack.toList.map m.heap.content? = s.stack.reverse.map some := by
  have hst := congrArg List.reverse h.stack
  rwa [values, List.map_reverse, List.reverse_reverse, ← List.map_reverse] at hst

theorem values_cons (h : m₀.Shows m s) {a : Datum} {rest : List Datum}
    (hs : s.stack = a :: rest) :
    ∃ v vs, m.values = v :: vs ∧ m.heap.content? v = some a ∧
      vs.map m.heap.content? = rest.map some := by
  have hst := h.stack
  rw [hs, List.map_cons, List.map_eq_cons_iff] at hst
  exact hst

theorem grow (h : m₀.Shows m s) {heap : Heap} (hc : heap.Coherent) (hg : m.heap.Grows heap) :
    m₀.Shows { m with heap := heap } s where
  settings := h.settings
  capacity := h.capacity
  coherent := hc
  stack := by
    rw [← h.stack]
    refine List.map_congr_left fun v hv => ?_
    have hm : m.heap.content? v ∈ m.values.map m.heap.content? := List.mem_map_of_mem hv
    rw [h.stack] at hm
    obtain ⟨a, -, ha⟩ := List.mem_map.mp hm
    rw [← ha]
    exact hg.content? ha.symm
  output := h.output
  console := h.console

theorem setStack (h : m₀.Shows m s) {t : Stack} (hc : t.capacity = m.stack.capacity)
    {stack : List Datum} (ht : t.toList.reverse.map m.heap.content? = stack.map some) :
    m₀.Shows { m with stack := t } { s with stack := stack } where
  settings := h.settings
  capacity := hc.trans h.capacity
  coherent := h.coherent
  stack := ht
  output := h.output
  console := h.console

theorem push (h : m₀.Shows m s) {v : Value} {a : Datum} (hv : m.heap.content? v = some a) :
    m₀.Agrees (m.push v) (s.push a) := by
  by_cases hlt : s.stack.length < s.capacity
  · obtain ⟨t, ht, hc, hvs⟩ := Machine.push_of_lt (m := m)
      (by rw [h.length, h.capacity]; exact hlt) v
    rw [ht, ContentMachine.push, if_pos hlt]
    exact h.setStack hc (by rw [hvs, List.map_cons, hv, h.stack, List.map_cons])
  · rw [Machine.push_of_full (by rw [h.length, h.capacity]; exact hlt), ContentMachine.push,
      if_neg hlt, h.capacity]
    rfl

theorem replace (h : m₀.Shows m s) {v : Value} {a : Datum} (hv : m.heap.content? v = some a)
    {n : Nat} (hn : 0 < n) (hle : n ≤ s.stack.length) :
    m₀.Agrees (m.replace n v) (.ok { s with stack := a :: s.stack.drop n }) := by
  obtain ⟨t, ht, hc, hvs⟩ := Machine.replace_of_le hn (by rw [h.length]; exact hle) v
  rw [ht]
  refine h.setStack hc ?_
  rw [hvs, List.map_cons, hv, List.map_drop, h.stack, List.map_cons, List.map_drop]

/-- An operator on two operands agrees if it does so on values that stand for the data. -/
theorem binary (h : m₀.Shows m s) {g : Value × Value → Except Fault Machine}
    {f : Datum → Datum → Except Fault Datum}
    (hg : ∀ v w left right rest, s.stack = right :: left :: rest →
      m.heap.content? v = some left → m.heap.content? w = some right →
      m₀.Agrees (g (v, w)) ((f left right).map fun r => { s with stack := r :: rest })) :
    m₀.Agrees (m.operands >>= g) (s.binary f) := by
  unfold ContentMachine.binary
  split
  · next right left rest hs =>
    obtain ⟨w, vs, hw, hcw, hvs⟩ := h.values_cons hs
    rw [List.map_cons, List.map_eq_cons_iff] at hvs
    obtain ⟨v, ws, rfl, hcv, -⟩ := hvs
    rw [Machine.operands_of_values hw]
    exact hg v w left right rest hs hcv hcw
  · next short =>
    have hlt : s.stack.length < 2 := by
      rcases hs : s.stack with _ | ⟨a, _ | ⟨b, rest⟩⟩
      · decide
      · exact Nat.lt_succ_self 1
      · exact absurd hs (short a b rest)
    rw [Machine.operands_of_short (by rw [h.length]; exact hlt), h.length]
    rfl

theorem withTop (h : m₀.Shows m s) {g : Value → Except Fault Machine}
    {f : Datum → List Datum → Except Fault ContentMachine}
    (hg : ∀ v a rest, s.stack = a :: rest → m.heap.content? v = some a →
      m₀.Agrees (g v) (f a rest)) :
    m₀.Agrees (m.peek 0 >>= g) (s.withTop f) := by
  unfold ContentMachine.withTop
  split
  · next a rest hs =>
    obtain ⟨v, vs, hv, hcv, -⟩ := h.values_cons hs
    rw [Machine.peek_of_lt (v := v) (by rw [hv]; rfl)]
    exact hg v a rest hs hcv
  · next hs =>
    have hl : m.values.length = 0 := by rw [h.length, hs]; rfl
    rw [Machine.peek_of_short (Nat.le_of_eq hl), hl]
    rfl

theorem replace_one (h : m₀.Shows m s) {v : Value} {a b : Datum} {rest : List Datum}
    (hs : s.stack = b :: rest) (hv : m.heap.content? v = some a) :
    m₀.Agrees (m.replace 1 v) (.ok { s with stack := a :: rest }) := by
  have hd := h.replace hv (n := 1) (by decide) (by simp [hs])
  rwa [hs] at hd

theorem replace_two (h : m₀.Shows m s) {v : Value} {a b c : Datum} {rest : List Datum}
    (hs : s.stack = c :: b :: rest) (hv : m.heap.content? v = some a) :
    m₀.Agrees (m.replace 2 v) (.ok { s with stack := a :: rest }) := by
  have hd := h.replace hv (n := 2) (by decide) (by simp [hs])
  rwa [hs] at hd

theorem numeric (h : m₀.Shows m s) (op : NumericOp) :
    m₀.Agrees (m.numeric op) (s.binary (Datum.calculate op)) := by
  refine h.binary fun v w left right rest hs hv hw => ?_
  rcases Heap.content?_cases hv with
      ⟨rfl, rfl⟩ | ⟨_, rfl, rfl⟩ | ⟨x, rfl, rfl⟩ | ⟨_, _, rfl, rfl, _⟩ <;>
    rcases Heap.content?_cases hw with
      ⟨rfl, rfl⟩ | ⟨_, rfl, rfl⟩ | ⟨y, rfl, rfl⟩ | ⟨_, _, rfl, rfl, _⟩ <;>
    try rfl
  by_cases hz : op = .divide ∧ (y == 0) = true
  · obtain ⟨rfl, hy⟩ := hz
    simp [hy, Datum.calculate]
    rfl
  · simp only [hz, if_false]
    cases op <;> first | exact h.replace_two hs rfl | skip
    simp only [true_and] at hz
    simp only [Datum.calculate, hz]
    exact h.replace_two hs rfl

/-- The joined string may be new to the heap, which then grows. -/
theorem concatenate (h : m₀.Shows m s) {t u : String} {rest : List Datum}
    (hs : s.stack = .text u :: .text t :: rest) :
    m₀.Agrees m.concatenate (.ok { s with stack := .text (t ++ u) :: rest }) := by
  obtain ⟨w, vs, hw, hcw, hvs⟩ := h.values_cons hs
  rw [List.map_cons, List.map_eq_cons_iff] at hvs
  obtain ⟨v, ws, rfl, hcv, -⟩ := hvs
  obtain ⟨i, rfl, hi⟩ := Heap.content?_text hcv
  obtain ⟨j, rfl, hj⟩ := Heap.content?_text hcw
  obtain ⟨heap, id, hin⟩ : ∃ heap id, m.heap.intern (t ++ u) = (heap, id) := ⟨_, _, rfl⟩
  obtain ⟨hc, hg, hid⟩ := h.coherent.intern hin
  have hr := (h.grow hc hg).replace_two (v := .string id) (a := .text (t ++ u)) hs
    (by simp [Heap.content?, hid])
  simp only [Machine.concatenate, Machine.operands_of_values hw, bind, Except.bind, hi, hj, hin]
  exact hr

theorem add (h : m₀.Shows m s) : m₀.Agrees m.add (s.binary Datum.add) := by
  refine h.binary fun v w left right rest hs hv hw => ?_
  rcases Heap.content?_cases hv with
      ⟨rfl, rfl⟩ | ⟨_, rfl, rfl⟩ | ⟨x, rfl, rfl⟩ | ⟨_, t, rfl, rfl, _⟩ <;>
    rcases Heap.content?_cases hw with
      ⟨rfl, rfl⟩ | ⟨_, rfl, rfl⟩ | ⟨y, rfl, rfl⟩ | ⟨_, u, rfl, rfl, _⟩ <;>
    try rfl
  · have hn := h.numeric .add
    rwa [ContentMachine.binary, hs] at hn
  · exact h.concatenate hs

theorem equal (h : m₀.Shows m s) :
    m₀.Agrees m.equal (s.binary fun a b => .ok (.boolean (a.equal b))) := by
  refine h.binary fun v w left right rest hs hv hw => ?_
  refine h.replace_two hs ?_
  rw [h.coherent.equal hv hw]
  rfl

theorem negate (h : m₀.Shows m s) : m₀.Agrees m.negate (s.unary Datum.negate) := by
  refine h.withTop fun v a rest hs hv => ?_
  rcases Heap.content?_cases hv with
    ⟨rfl, rfl⟩ | ⟨_, rfl, rfl⟩ | ⟨x, rfl, rfl⟩ | ⟨_, _, rfl, rfl, _⟩ <;> try rfl
  exact h.replace_one hs rfl

theorem not (h : m₀.Shows m s) :
    m₀.Agrees m.not (s.unary fun a => .ok (.boolean a.isFalsey)) := by
  refine h.withTop fun v a rest hs hv => ?_
  refine h.replace_one hs ?_
  rw [Heap.isFalsey_of_content? hv]
  rfl

theorem drop_one (h : m₀.Shows m s) {a : Datum} {rest : List Datum} (hs : s.stack = a :: rest) :
    m₀.Shows { m with stack := m.stack.drop 1 } { s with stack := rest } := by
  refine h.setStack (t := m.stack.drop 1) rfl ?_
  rw [Machine.values_drop, List.map_drop, h.stack, hs]
  rfl

theorem ensureDepth (h : m₀.Shows m s) {g : Unit → Except Fault Machine}
    {f : Datum → List Datum → Except Fault ContentMachine}
    (hg : ∀ a rest, s.stack = a :: rest → m₀.Agrees (g ()) (f a rest)) :
    m₀.Agrees (m.ensureDepth 1 >>= g) (s.withTop f) := by
  unfold ContentMachine.withTop
  split
  · next a rest hs =>
    rw [Machine.ensureDepth_of_le (by rw [h.length, hs]; exact Nat.le_add_left _ _)]
    exact hg a rest hs
  · next hs =>
    have hl : m.values.length = 0 := by rw [h.length, hs]; rfl
    rw [Machine.ensureDepth_of_short (by rw [hl]; decide), hl]
    rfl

theorem discard (h : m₀.Shows m s) :
    m₀.Agrees m.discard (s.withTop fun _ rest => .ok { s with stack := rest }) :=
  h.ensureDepth fun _ _ hs => h.drop_one hs

theorem printTop (h : m₀.Shows m s) :
    m₀.Agrees m.printTop (s.withTop fun a rest =>
      .ok { s with stack := rest, output := s.output ++ [a.toText] }) := by
  refine h.ensureDepth fun a rest hs => ?_
  obtain ⟨v, vs, hv, hcv, -⟩ := h.values_cons hs
  have hd := h.drop_one hs
  have hf : Machine.format { m with stack := m.stack.drop 1 } v = a.toText :=
    Machine.format_of_content? hcv
  rw [Machine.peek_of_lt (v := v) (by rw [hv]; rfl)]
  refine ⟨hd.settings, hd.capacity, hd.coherent, hd.stack, ?_, ?_⟩
  · simp only [Machine.print, hf, Array.toList_push, h.output, List.append_assoc]
  · simp only [Machine.print, hf]
    rw [h.settings]
    split
    · next he =>
      simp only [Array.toList_push, h.console, he, if_true, List.append_assoc]
    · next he =>
      simp only [h.console, he]
      rfl

end Shows

end Machine

end ExprMachine
