import ExprMachine.Proofs.Compile.InTurn
import ExprMachine.Proofs.Content.History
import ExprMachine.Proofs.Machine.Dispatches
import ExprMachine.Proofs.Machine.Filling

/-! The life of a machine, from its creation through any calls in any order. A call that is
refused counts as well: what it has left behind is what the next call finds. -/

namespace ExprMachine

inductive Call where
  | create (settings : Settings)
  | init
  | interpret (source : String)
  | interpretChunk (chunk : Chunk)
  | takeOutput
  | teardown

inductive Reply where
  | done
  | verdict (v : Verdict)
  | output (printed : Array String)
  | teardown (t : Teardown)

namespace Machine

/-- What a call is answered with, and the machine at hand afterwards. -/
def reply (m : Machine) : Call → Except Refusal Reply × Machine
  | .create settings =>
    match create settings with
    | .ok new => (.ok .done, new)
    | .error r => (.error r, m)
  | .init => (.ok .done, m.init)
  | .interpret source =>
    let (answer, m') := m.interpret source
    (answer.map .verdict, m')
  | .interpretChunk c =>
    let (answer, m') := m.interpretChunk c
    (answer.map .verdict, m')
  | .takeOutput =>
    let (printed, m') := m.takeOutput
    (.ok (.output printed), m')
  | .teardown =>
    match m.teardown with
    | .ok (t, m') => (.ok (.teardown t), m')
    | .error r => (.error r, m)

end Machine

/-- The machine at hand after calls, each given with its answer, the latest first. -/
inductive Lived : List (Call × Except Refusal Reply) → Machine → Prop
  | create {settings : Settings} {m : Machine} : Machine.create settings = .ok m →
    Lived [(.create settings, .ok .done)] m
  | call {calls : List (Call × Except Refusal Reply)} {m : Machine} (c : Call) :
    Lived calls m → Lived ((c, (m.reply c).1) :: calls) (m.reply c).2

namespace Call

/-- The settings that a call has put in force. -/
def settings? : Call × Except Refusal Reply → Option Settings
  | (.create settings, .ok _) => some settings
  | _ => none

/-- Whether a call has torn the machine down, if it has settled that. -/
def tornDown? : Call × Except Refusal Reply → Option Bool
  | (.create _, .ok _) => some false
  | (.init, .ok _) => some false
  | (.teardown, .ok _) => some true
  | _ => none

def refusal? : Call → Option Refusal
  | .interpret _ | .interpretChunk _ => some .interpretTornDown
  | .teardown => some .teardownTwice
  | _ => none

/-- The call may have to count past the last word: the bytes of the line table, or the offset
after the code where instructions are listed as they run. -/
def CountsTooFar (trace : Bool) : Call → Prop
  | .interpret source => ∃ c, compile source = .ok c ∧ Word.size ≤ c.code.size
  | .interpretChunk c =>
    Word.size ≤ c.lines.total ∨ trace = true ∧ Word.size ≤ c.code.size + 1
  | _ => False

end Call

namespace Machine

structure Kept (m : Machine) : Prop where
  capacity : m.stack.capacity = m.settings.capacity
  resolves : ∀ id, .string id ∈ m.stack.toList → ∃ s, m.heap.get? id = some s
  accounted : m.heap.Accounted
  emptied : m.tornDown = true →
    m.stack.toList = [] ∧ m.heap.values.toList = [] ∧ m.heap.interned.toList = []

theorem kept_of_empty {m : Machine} (hc : m.stack.capacity = m.settings.capacity)
    (hs : m.stack.toList = []) (ha : m.heap.Accounted)
    (hh : m.heap.values.toList = [] ∧ m.heap.interned.toList = []) : m.Kept where
  capacity := hc
  resolves id hid := by
    rw [hs] at hid
    cases hid
  accounted := ha
  emptied _ := ⟨hs, hh⟩

theorem release_toList (h : Heap) :
    h.release.values.toList = [] ∧ h.release.interned.toList = [] := by
  simp [Heap.release]

theorem create_ok {settings : Settings} {m : Machine} (h : create settings = .ok m) :
    m = new settings := by
  unfold create at h
  split at h
  · cases h
    rfl
  · cases h

theorem kept_create {settings : Settings} {m : Machine} (h : create settings = .ok m) :
    m.Kept := by
  obtain rfl := create_ok h
  exact kept_of_empty rfl rfl Heap.accounted_empty (by simp [new, Heap.empty])

theorem kept_init {m : Machine} (h : m.Kept) : m.init.Kept :=
  kept_of_empty h.capacity rfl (Heap.accounted_release m.heap) (release_toList m.heap)

theorem teardown_of_live {m : Machine} (hm : m.tornDown = false) :
    ∃ t, m.teardown = .ok (t, { m.cleared with tornDown := true }) := by
  rw [teardown, if_neg (by rw [hm]; exact Bool.false_ne_true)]
  exact ⟨_, rfl⟩

theorem teardown_of_tornDown {m : Machine} (hm : m.tornDown = true) :
    m.teardown = .error .teardownTwice := if_pos hm

theorem interpretChunk_of_tornDown {m : Machine} (hm : m.tornDown = true) (c : Chunk) :
    m.interpretChunk c = (.error .interpretTornDown, m) := if_pos hm

theorem interpret_of_tornDown {m : Machine} (hm : m.tornDown = true) (source : String) :
    m.interpret source = (.error .interpretTornDown, m) := if_pos hm

theorem interpret_of_error {m : Machine} (hm : m.tornDown = false) {source : String}
    {errors : List CompileError} (h : compile source = .error errors) :
    m.interpret source = (.ok (.compileErrors errors), m) := by
  rw [interpret, if_neg (by rw [hm]; exact Bool.false_ne_true), h]

theorem kept_interpretChunk {m : Machine} (h : m.Kept) (c : Chunk) :
    (m.interpretChunk c).2.Kept := by
  cases hm : m.tornDown with
  | true =>
    rw [interpretChunk_of_tornDown hm]
    exact h
  | false =>
    obtain ⟨-, hs⟩ := interpretChunk_shows hm c
    have hcapacity := capacity_interpretChunk hm c
    have hlive := interpretChunk_live hm c
    refine ⟨?_, fun id hid => hs.get?_string hid, accounted_interpretChunk hm c, fun ht => ?_⟩
    · rw [hcapacity, hs.settings, h.capacity]
    · rw [hlive] at ht
      cases ht

theorem interpret_cases {m : Machine} (hm : m.tornDown = false) (source : String) :
    (∃ errors, compile source = .error errors ∧
        m.interpret source = (.ok (.compileErrors errors), m)) ∨
      ∃ c, compile source = .ok c ∧ m.interpret source = m.interpretChunk c := by
  cases hc : compile source with
  | error errors => exact .inl ⟨errors, rfl, interpret_of_error hm hc⟩
  | ok c => exact .inr ⟨c, rfl, interpret_of_ok hm hc⟩

theorem kept_interpret {m : Machine} (h : m.Kept) (source : String) :
    (m.interpret source).2.Kept := by
  cases hm : m.tornDown with
  | true =>
    rw [interpret_of_tornDown hm]
    exact h
  | false =>
    rcases interpret_cases hm source with ⟨errors, -, hi⟩ | ⟨c, -, hi⟩ <;> rw [hi]
    · exact h
    · exact kept_interpretChunk h c

theorem kept_reply {m : Machine} (h : m.Kept) (c : Call) : (m.reply c).2.Kept := by
  cases c with
  | create settings =>
    rw [reply]
    cases hn : create settings with
    | ok new => exact kept_create hn
    | error r => exact h
  | init => exact kept_init h
  | interpret source => exact kept_interpret h source
  | interpretChunk c => exact kept_interpretChunk h c
  | takeOutput => exact ⟨h.capacity, h.resolves, h.accounted, h.emptied⟩
  | teardown =>
    cases hm : m.tornDown with
    | true =>
      rw [reply, teardown_of_tornDown hm]
      exact h
    | false =>
      obtain ⟨t, ht⟩ := teardown_of_live hm
      rw [reply, ht]
      exact kept_of_empty h.capacity rfl (Heap.accounted_release m.heap) (release_toList m.heap)

theorem interpretChunk_settles (m : Machine) (c : Chunk) :
    (m.interpretChunk c).2.settings = m.settings ∧
      (m.interpretChunk c).2.tornDown = m.tornDown := by
  cases hm : m.tornDown with
  | true =>
    rw [interpretChunk_of_tornDown hm]
    exact ⟨rfl, hm⟩
  | false =>
    obtain ⟨-, hs⟩ := interpretChunk_shows hm c
    exact ⟨hs.settings, interpretChunk_live hm c⟩

theorem interpret_settles (m : Machine) (source : String) :
    (m.interpret source).2.settings = m.settings ∧
      (m.interpret source).2.tornDown = m.tornDown := by
  cases hm : m.tornDown with
  | true =>
    rw [interpret_of_tornDown hm]
    exact ⟨rfl, hm⟩
  | false =>
    rcases interpret_cases hm source with ⟨errors, -, hi⟩ | ⟨c, -, hi⟩ <;> rw [hi]
    · exact ⟨rfl, hm⟩
    · rw [← hm]
      exact m.interpretChunk_settles c

/-- A call changes the settings, tears the machine down or revives it only if it is answered. -/
theorem reply_settles (m : Machine) (c : Call) :
    (m.reply c).2.settings = (Call.settings? (c, (m.reply c).1)).getD m.settings ∧
      (m.reply c).2.tornDown = (Call.tornDown? (c, (m.reply c).1)).getD m.tornDown := by
  cases c with
  | create settings =>
    rw [reply]
    cases hn : create settings with
    | ok new =>
      obtain rfl := create_ok hn
      exact ⟨rfl, rfl⟩
    | error r => exact ⟨rfl, rfl⟩
  | init | takeOutput => exact ⟨rfl, rfl⟩
  | interpret source => exact m.interpret_settles source
  | interpretChunk c => exact m.interpretChunk_settles c
  | teardown =>
    cases hm : m.tornDown with
    | true =>
      rw [reply, teardown_of_tornDown hm]
      exact ⟨rfl, hm⟩
    | false =>
      obtain ⟨t, ht⟩ := teardown_of_live hm
      rw [reply, ht]
      exact ⟨rfl, rfl⟩

theorem reply_of_tornDown {m : Machine} (hm : m.tornDown = true) {c : Call} {r : Refusal}
    (hr : c.refusal? = some r) : m.reply c = (.error r, m) := by
  cases c with
  | create _ | init | takeOutput => cases hr
  | interpret source => cases hr; rw [reply, interpret_of_tornDown hm]; rfl
  | interpretChunk c => cases hr; rw [reply, interpretChunk_of_tornDown hm]; rfl
  | teardown => cases hr; rw [reply, teardown_of_tornDown hm]

theorem interpretChunk_answered {m : Machine} (hm : m.tornDown = false) {c : Chunk}
    (hl : c.lines.total < Word.size)
    (ht : m.settings.trace = true → c.code.size + 1 < Word.size) :
    ∃ v, (m.interpretChunk c).1 = .ok v := by
  rw [← LineTable.length_byteLines] at hl
  obtain ⟨before, last, -, hend⟩ := interpretChunk_dispatches hm hl ht
  cases hs : last.2.dispatch last.1 with
  | next g m' => rw [hs] at hend; exact hend.elim
  | halted m' | failed e m' =>
    rw [hs] at hend
    rw [hend]
    exact ⟨_, rfl⟩

theorem interpret_answered {m : Machine} (hm : m.tornDown = false) {source : String}
    (hw : ∀ c, compile source = .ok c → c.code.size < Word.size) :
    ∃ v, (m.interpret source).1 = .ok v := by
  rcases interpret_cases hm source with ⟨errors, -, hi⟩ | ⟨c, hc, -⟩
  · exact ⟨_, congrArg Prod.fst hi⟩
  · obtain ⟨tokens, -, hs, -⟩ := compile_spec hc
    obtain ⟨ss, hp, -⟩ := (compile_eq_ok_iff hs).mp hc
    obtain ⟨hv, -⟩ := interpret_shows hm hs hp hc (hw c hc)
    rw [hv]
    rcases ContentMachine.runAll_ends (programCode ss tokens.finish.line)
      ⟨m.stack.capacity, [], []⟩ with hend | ⟨e, hend⟩ <;> rw [hend]
    · exact ⟨.ok, rfl⟩
    · exact ⟨.runtimeError e, rfl⟩

theorem reply_of_live {m : Machine} (hm : m.tornDown = false) {c : Call} {r : Refusal}
    (hr : c.refusal? = some r) (hc : ¬ c.CountsTooFar m.settings.trace) :
    ∃ answer, (m.reply c).1 = .ok answer := by
  cases c with
  | create _ | init | takeOutput => cases hr
  | interpret source =>
    have hfits : ∀ c, compile source = .ok c → c.code.size < Word.size := fun c h =>
      Nat.lt_of_not_le fun hle => hc ⟨c, h, hle⟩
    obtain ⟨v, hv⟩ := interpret_answered hm hfits
    exact ⟨.verdict v, by simp only [reply, hv, Except.map]⟩
  | interpretChunk c =>
    have hl : c.lines.total < Word.size := Nat.lt_of_not_le fun hle => hc (.inl hle)
    have hw : m.settings.trace = true → c.code.size + 1 < Word.size := fun ht =>
      Nat.lt_of_not_le fun hle => hc (.inr ⟨ht, hle⟩)
    obtain ⟨v, hv⟩ := interpretChunk_answered hm hl hw
    exact ⟨.verdict v, by simp only [reply, hv, Except.map]⟩
  | teardown =>
    obtain ⟨t, ht⟩ := teardown_of_live hm
    exact ⟨.teardown t, by rw [reply, ht]⟩

theorem reply_compileErrors {m : Machine} {source : String} {errors : List CompileError}
    (h : (m.reply (.interpret source)).1 = .ok (.verdict (.compileErrors errors))) :
    (m.reply (.interpret source)).2 = m := by
  cases hm : m.tornDown with
  | true => rw [reply_of_tornDown hm rfl]
  | false =>
    rcases interpret_cases hm source with ⟨_, -, hi⟩ | ⟨c, -, hi⟩
    · rw [reply, hi]
    · rw [reply, hi, interpretChunk_of_live hm] at h
      cases hv : (runFrom (c.code.size + 1) (Frame.ofChunk c) m.cleared).1 <;>
        simp [hv, Ending.verdict, Except.map] at h

end Machine

namespace Lived

variable {calls : List (Call × Except Refusal Reply)} {m : Machine}

theorem kept (h : Lived calls m) : m.Kept := by
  induction h with
  | create hn => exact Machine.kept_create hn
  | call c _ ih => exact Machine.kept_reply ih c

theorem settled (h : Lived calls m) : calls.findSome? Call.settings? = some m.settings ∧
    calls.findSome? Call.tornDown? = some m.tornDown := by
  induction h with
  | create hn =>
    obtain rfl := Machine.create_ok hn
    exact ⟨rfl, rfl⟩
  | @call calls m c _ ih =>
    obtain ⟨hsettings, htorn⟩ := m.reply_settles c
    rw [List.findSome?_cons, List.findSome?_cons, hsettings, htorn]
    constructor
    · cases Call.settings? (c, (m.reply c).1) with
      | some settings => rfl
      | none => exact ih.1
    · cases Call.tornDown? (c, (m.reply c).1) with
      | some b => rfl
      | none => exact ih.2

end Lived

namespace Machine

/-- Whatever a machine has been through, it has the capacity that was last set up, its handles
resolve, its heap is in order, and it has nothing left if it was torn down. Of the calls that
need a machine that is not torn down, those on one that is are refused and change nothing, and
all others are answered, unless their counts go too far. -/
theorem lived_machine (calls : List (Call × Except Refusal Reply)) (m : Machine)
    (h : Lived calls m) :
    (∃ settings, calls.findSome? Call.settings? = some settings ∧
      m.stack.capacity = settings.capacity ∧ m.stack.toList.length ≤ settings.capacity) ∧
    (∀ id, .string id ∈ m.stack.toList → ∃ s, m.heap.get? id = some s) ∧
    (∀ (s : String) (id : Nat), m.heap.interned[s]? = some id ↔ m.heap.values[id]? = some s) ∧
    m.heap.bytes = (m.heap.values.toList.map fun entry => entry.2.utf8ByteSize).sum ∧
    calls.findSome? Call.tornDown? = some m.tornDown ∧
    (m.tornDown = true →
      m.stack.toList = [] ∧ m.heap.values.toList = [] ∧ m.heap.interned.toList = []) ∧
    (∀ c r, c.refusal? = some r →
      (m.tornDown = true → m.reply c = (.error r, m)) ∧
      (m.tornDown = false → ¬ c.CountsTooFar m.settings.trace →
        ∃ answer, (m.reply c).1 = .ok answer)) ∧
    ∀ source errors, (m.reply (.interpret source)).1 = .ok (.verdict (.compileErrors errors)) →
      (m.reply (.interpret source)).2 = m := by
  have hk := h.kept
  obtain ⟨hsettings, htorn⟩ := h.settled
  have hlength : m.stack.toList.length ≤ m.stack.capacity := by
    have hle := m.length_values_le
    rwa [values, List.length_reverse] at hle
  refine ⟨⟨m.settings, hsettings, hk.capacity, hk.capacity ▸ hlength⟩, hk.resolves,
    hk.accounted.inverse, hk.accounted.bytes_eq, htorn, hk.emptied, fun c r hr => ?_,
    fun source errors => reply_compileErrors⟩
  exact ⟨fun hm => reply_of_tornDown hm hr, fun hm hc => reply_of_live hm hr hc⟩

/-- The run stops at an operator, and a text is left on the stack. -/
theorem lived_machine_fault :
    let c : Chunk := ⟨#[1, 0, 3, 10, 0], #[.text "a"], ⟨#[⟨1, 5⟩]⟩⟩
    let m := ((new ⟨2, false, false⟩).reply (.interpretChunk c)).2
    ∃ calls, Lived calls m ∧ m.stack.toList.length = 2 ∧ m.tornDown = false ∧
      (∃ id, .string id ∈ m.stack.toList ∧ ∃ s, m.heap.get? id = some s) ∧
      Lived ((.teardown, (m.reply .teardown).1) :: calls) (m.reply .teardown).2 ∧
      (m.reply .teardown).2.reply .teardown =
        (.error .teardownTwice, (m.reply .teardown).2) := by
  intro c m
  have hcreate : Lived [(.create ⟨2, false, false⟩, .ok .done)] (new ⟨2, false, false⟩) :=
    .create rfl
  have hlived := hcreate.call (.interpretChunk c)
  obtain ⟨-, hs⟩ := interpretChunk_shows (m := new ⟨2, false, false⟩) rfl c
  have hstack : (ContentMachine.run false 2 c).2.stack = [.nil, .text "a"] := by decide +kernel
  have hcontent : m.stack.toList.map m.heap.content? = [some (.text "a"), some .nil] :=
    hs.stack_toList.trans (congrArg (fun stack => stack.reverse.map some) hstack)
  have hlength : m.stack.toList.length = 2 := by
    simpa using congrArg List.length hcontent
  obtain ⟨v, rest, hv, hcv, -⟩ := List.map_eq_cons_iff.mp hcontent
  obtain ⟨id, rfl, -⟩ := Heap.content?_text hcv
  have hmem : Value.string id ∈ m.stack.toList := by rw [hv]; exact List.mem_cons_self
  obtain ⟨-, hresolves, -⟩ := lived_machine _ m hlived
  have hlive := interpretChunk_live (m := new ⟨2, false, false⟩) rfl c
  obtain ⟨t, ht⟩ := teardown_of_live (m := m) hlive
  have htorn : (m.reply .teardown).2.tornDown = true := by simp only [reply, ht]
  obtain ⟨-, -, -, -, -, -, hcalls, -⟩ := lived_machine _ _ (hlived.call .teardown)
  exact ⟨_, hlived, hlength, hlive, ⟨id, hmem, hresolves id hmem⟩, hlived.call .teardown,
    (hcalls .teardown .teardownTwice rfl).1 htorn⟩

/-- A machine that is not torn down refuses a chunk whose line table counts too many bytes,
and the values are left that were pushed before the fault. -/
theorem live_machine_refuses :
    let c : Chunk := ⟨#[3, 3, 3, 10], #[], ⟨#[⟨1, 1⟩, ⟨2, 18446744073709551615⟩]⟩⟩
    let m := new ⟨256, false, false⟩
    Lived [(.create ⟨256, false, false⟩, .ok .done)] m ∧ m.tornDown = false ∧
      (m.interpretChunk c).1 = .error .sumTooLarge ∧
      (m.interpretChunk c).2.stack.toList.length = 3 := by
  exact ⟨.create rfl, rfl, rfl, rfl⟩

end Machine

end ExprMachine
