import ExprMachine.Proofs.Content.Simulation

/-! What a machine has done before cannot be observed in a run. -/

namespace ExprMachine

/-- Listing the instructions does not change a run that it does not refuse. -/
theorem ContentMachine.runFrom_untraced {f : Frame} {m : ContentMachine}
    (h : ∀ r, (runFrom true f m).1 ≠ .refused r) : runFrom false f m = runFrom true f m := by
  have hl (f : Frame) : listed false f = .ok () := rfl
  fun_induction runFrom true f m with
  | case1 f m e he => exact absurd rfl (h e)
  | case2 f m he e g hi =>
    rw [runFrom_eq]
    simp only [hl, hi]
  | case3 f m he g hi =>
    rw [runFrom_eq]
    simp only [hl, hi, if_true]
  | case4 f m he i g hi hh m' hx ih =>
    rw [runFrom_eq]
    simp only [hl, hi, hh, if_false, hx]
    exact ih h
  | case5 f m he i g hi hh e hx =>
    rw [runFrom_eq]
    simp only [hl, hi, hh, if_false, hx]

theorem ContentMachine.run_untraced {trace : Bool} {capacity : Nat} {c : Chunk} {v : Verdict}
    (h : (run trace capacity c).1.verdict = .ok v) :
    run false capacity c = run trace capacity c := by
  cases trace with
  | false => rfl
  | true =>
    refine runFrom_untraced fun r hr => ?_
    rw [run, hr] at h
    cases h

namespace Machine

def Next (p q : Frame × Machine) : Prop :=
  ∃ m, p.2.note p.1.beginOp = .ok m ∧ m.dispatch p.1.beginOp = .next q.1 q.2

abbrev Reaches := Relation.ReflTransGen Next

/-- The strings on the stack are equal exactly if they have the same characters, and none
has lost them. -/
def EqualByContent (m : Machine) : Prop :=
  ∀ i j, .string i ∈ m.stack.toList → .string j ∈ m.stack.toList →
    (m.heap.get? i).isSome ∧
      ((Value.string i).equal (.string j) = true ↔ m.heap.get? i = m.heap.get? j)

variable {m₀ m : Machine} {s : ContentMachine}

theorem Shows.get?_string (h : m₀.Shows m s) {i : Nat} (hi : .string i ∈ m.stack.toList) :
    ∃ t, m.heap.get? i = some t := by
  have hm : m.heap.content? (.string i) ∈ m.values.map m.heap.content? :=
    List.mem_map_of_mem (List.mem_reverse.mpr hi)
  rw [h.stack] at hm
  obtain ⟨a, -, ha⟩ := List.mem_map.mp hm
  obtain ⟨t, ht, -⟩ := Option.map_eq_some_iff.mp ha.symm
  exact ⟨t, ht⟩

theorem Shows.equalByContent (h : m₀.Shows m s) : m.EqualByContent := by
  intro i j hi hj
  obtain ⟨t, ht⟩ := h.get?_string hi
  obtain ⟨u, hu⟩ := h.get?_string hj
  refine ⟨by rw [ht]; rfl, ?_⟩
  rw [Value.equal, beq_iff_eq]
  constructor
  · rintro rfl
    rfl
  · intro htu
    exact h.coherent.eq_of_get? ht (htu ▸ ht)

theorem Shows.next (h : m₀.Shows m s) {f g : Frame} {m' : Machine}
    (hn : Next (f, m) (g, m')) : ∃ s', m₀.Shows m' s' := by
  obtain ⟨noted, hm, hd⟩ := hn
  have hnote := h.note f.beginOp
  split at hnote
  · obtain ⟨m₁, hm₁, hs₁⟩ := hnote
    cases hm.symm.trans hm₁
    rw [dispatch_eq] at hd
    rcases hi : f.beginOp.readInstruction with ⟨e | i, g'⟩ <;> rw [hi] at hd
    · cases hd
    · by_cases hh : i = .op .halt
      · subst hh
        cases hd
      · obtain ⟨-, -, -, -, hp⟩ := Frame.readInstruction_ok hi
        have hst := hs₁.perform g' hp hh
        simp only at hd
        rw [hd] at hst
        cases he : s.execute i with
        | ok s' =>
          rw [he] at hst
          obtain ⟨m₂, hm₂, hs₂⟩ := hst
          cases hm₂
          exact ⟨s', hs₂⟩
        | error e =>
          rw [he] at hst
          obtain ⟨m₂, hm₂, -⟩ := hst
          cases hm₂
  · rw [hnote] at hm
    cases hm

theorem Shows.reaches {p q : Frame × Machine} (h : m₀.Shows p.2 s) (hr : Reaches p q) :
    ∃ s', m₀.Shows q.2 s' := by
  induction hr with
  | refl => exact ⟨s, h⟩
  | tail _ hn ih =>
    obtain ⟨s', hs'⟩ := ih
    exact hs'.next hn

theorem map_format_of_content? {vs : List Value} {as : List Datum}
    (h : vs.map m.heap.content? = as.map some) : vs.map m.format = as.map Datum.toText := by
  induction vs generalizing as with
  | nil =>
    obtain rfl : as = [] := List.map_eq_nil_iff.mp h.symm
    rfl
  | cons v vs ih =>
    obtain ⟨a, as, rfl, hv, hvs⟩ := List.map_eq_cons_iff.mp h.symm
    rw [List.map_cons, List.map_cons, format_of_content? hv.symm, ih hvs.symm]

theorem Shows.stackText (h : m₀.Shows m s) :
    m.stackText = String.join ((s.stack.reverse.map Datum.toText).map fun t => s!"[ {t} ]") := by
  rw [← map_format_of_content? h.stack_toList, List.map_map]
  rfl

/-- Whatever a machine has on its stack and in its heap, a chunk comes to the same on it as
on the machine without a heap. So machines of one capacity with different pasts give the same
verdict, print the same and end with the same on their stacks. -/
theorem interpretChunk_content (m : Machine) (hm : m.tornDown = false) (c : Chunk) :
    let after := m.interpretChunk c
    let run := ContentMachine.run m.settings.trace m.stack.capacity c
    after.1 = run.1.verdict ∧
    after.2.output.toList = m.output.toList ++ run.2.output ∧
    after.2.stack.toList.map after.2.heap.content? = run.2.stack.reverse.map some ∧
    after.2.EqualByContent ∧
    (∀ f m', Reaches (Frame.ofChunk c, m.cleared) (f, m') → m'.EqualByContent) ∧
    ∀ n : Machine, n.tornDown = false → n.stack.capacity = m.stack.capacity →
      (n.settings.trace = m.settings.trace ∨
        ∃ v w, (m.interpretChunk c).1 = .ok v ∧ (n.interpretChunk c).1 = .ok w) →
      (n.interpretChunk c).1 = after.1 ∧
      (∃ new, after.2.output.toList = m.output.toList ++ new ∧
        (n.interpretChunk c).2.output.toList = n.output.toList ++ new) ∧
      (n.interpretChunk c).2.stackText = after.2.stackText := by
  obtain ⟨hv, hs⟩ := interpretChunk_shows hm c
  refine ⟨hv, hs.output, hs.stack_toList, hs.equalByContent, ?_, ?_⟩
  · intro f m' hr
    obtain ⟨s, hs'⟩ := m.shows_cleared.reaches (q := (f, m')) hr
    exact hs'.equalByContent
  · intro n hn hcap htrace
    obtain ⟨hv', hs'⟩ := interpretChunk_shows hn c
    have hrun : ContentMachine.run n.settings.trace n.stack.capacity c =
        ContentMachine.run m.settings.trace m.stack.capacity c := by
      rw [hcap] at hv' ⊢
      rcases htrace with ht | ⟨v, w, hmv, hnw⟩
      · rw [ht]
      · rw [← ContentMachine.run_untraced (hv'.symm.trans hnw),
          ContentMachine.run_untraced (hv.symm.trans hmv)]
    rw [hrun] at hv' hs'
    exact ⟨hv'.trans hv.symm, ⟨_, hs.output, hs'.output⟩, hs'.stackText.trans hs.stackText.symm⟩

/-- The stack and the output are left from an earlier run, and the handle has no string. -/
theorem interpretChunk_content_used :
    let c : Chunk := ⟨#[1, 0, 1, 1, 7, 16, 0], #[.text "a", .text "a"], ⟨#[⟨1, 7⟩]⟩⟩
    let m : Machine := { new ⟨2, false, false⟩ with
      stack := ⟨2, #[.string 7], 1, by decide, by decide⟩
      heap := ⟨∅, ∅, 7, 0⟩
      output := #["b"] }
    m.tornDown = false ∧ (m.interpretChunk c).1 = .ok .ok ∧
      (m.interpretChunk c).2.output.toList = ["b", "true"] ∧
      ((new ⟨2, false, false⟩).interpretChunk c).1 = .ok .ok := by
  intro c m
  obtain ⟨hv, ho, -, -, -, hn⟩ := interpretChunk_content m rfl c
  obtain ⟨hsame, -, -⟩ := hn (new ⟨2, false, false⟩) rfl rfl (.inl rfl)
  have he : (ContentMachine.run false 2 c).1 = .halted := by decide +kernel
  have hr : (ContentMachine.run false 2 c).2.output = ["true"] := by decide +kernel
  have hok : (m.interpretChunk c).1 = .ok .ok := hv.trans (congrArg Ending.verdict he)
  refine ⟨rfl, hok, ?_, hsame.trans hok⟩
  rw [ho]
  exact congrArg (["b"] ++ ·) hr

end Machine

end ExprMachine
