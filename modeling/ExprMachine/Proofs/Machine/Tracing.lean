import ExprMachine.Proofs.Chunk.Listings
import ExprMachine.Proofs.Machine.Dispatches
import ExprMachine.Proofs.Machine.Endurance

/-! A traced run lists the instructions that it executes, one after the other, as they are listed
without a run. -/

namespace ExprMachine

namespace Chunk

variable {c : Chunk} {offset : Nat}

theorem lt_of_mem_offsetsFrom {o : Nat} (h : o ∈ c.offsetsFrom offset) : o < c.code.size := by
  induction offset using offsetsFrom.induct c with
  | case1 offset hlt _ ih =>
    rw [offsetsFrom, dif_pos hlt] at h
    rcases List.mem_cons.mp h with rfl | h
    · exact hlt
    · exact ih h
  | case2 offset hge =>
    rw [offsetsFrom, dif_neg hge] at h
    cases h

theorem offsetsFrom_of_read {i : Instruction} {g : Frame}
    (h : (Frame.mk c offset offset).readInstruction = (.ok i, g)) :
    c.offsetsFrom offset = offset :: c.offsetsFrom g.next := by
  obtain ⟨-, byte, hb, hnext⟩ := wholeAt_of_read h
  obtain ⟨hlt, rfl⟩ := Array.getElem?_eq_some_iff.mp hb
  rw [offsetsFrom, dif_pos hlt, hnext]

def listingAt (c : Chunk) (offset : Nat) : Except Refusal String :=
  (c.instructionAt offset).map (·.1)

theorem instructions_eq (c : Chunk) : c.instructions = (c.offsetsFrom 0).mapM c.listingAt := rfl

theorem offsetsFrom_size (c : Chunk) : c.offsetsFrom c.code.size = [] := by
  rw [offsetsFrom, dif_neg (Nat.lt_irrefl _)]

/-- At the end of the code stands its end. -/
theorem mapM_listingAt_size {texts : List String}
    (h : [c.code.size].mapM c.listingAt = .ok texts) :
    ∃ margin, c.margin c.code.size = .ok margin ∧ texts = [margin ++ "<end of chunk>"] := by
  rw [List.mapM_cons, listingAt] at h
  cases hr : c.instructionAt c.code.size with
  | error e =>
    rw [hr] at h
    cases h
  | ok r =>
    obtain ⟨margin, hm, htext, -⟩ := instructionAt_ok hr
    rw [hr] at h
    cases h
    simp only [bodyAt, Array.getElem?_size] at htext
    exact ⟨margin, hm, by rw [← htext]; rfl⟩

theorem mapM_append_ok {os os' : List Nat} {texts : List String}
    (h : (os ++ os').mapM c.listingAt = .ok texts) :
    ∃ first rest, os.mapM c.listingAt = .ok first ∧ os'.mapM c.listingAt = .ok rest ∧
      texts = first ++ rest := by
  rw [List.mapM_append] at h
  cases hf : os.mapM c.listingAt with
  | error e =>
    rw [hf] at h
    cases h
  | ok first =>
    cases hr : os'.mapM c.listingAt with
    | error e =>
      rw [hf, hr] at h
      cases h
    | ok rest =>
      rw [hf, hr] at h
      cases h
      exact ⟨first, rest, rfl, rfl, rfl⟩

theorem exists_instructions (h : c.lines.total < Word.size) :
    ∃ listings, c.instructions = .ok listings := by
  have hall (os : List Nat) (ho : ∀ o ∈ os, o < c.code.size) :
      ∃ listings, os.mapM c.listingAt = .ok listings := by
    induction os with
    | nil => exact ⟨[], rfl⟩
    | cons o os ih =>
      obtain ⟨hlt, hos⟩ := List.forall_mem_cons.mp ho
      obtain ⟨listings, hl⟩ := ih hos
      have hsome : c.code[o]? ≠ none := by rw [Array.getElem?_eq_getElem hlt]; exact nofun
      obtain ⟨r, hr⟩ : ∃ r, c.instructionAt o = .ok r :=
        exists_instructionAt (by rwa [LineTable.length_byteLines]) fun hn => absurd hn hsome
      refine ⟨r.1 :: listings, ?_⟩
      rw [List.mapM_cons, listingAt, hr, hl]
      rfl
  exact hall _ fun _ => lt_of_mem_offsetsFrom

end Chunk

namespace Machine

variable {m : Machine} {f : Frame}

/-- How an instruction that is dispatched is listed, and what that tells of it. -/
structure ShownAs (m : Machine) (f : Frame) (text : String) : Prop where
  /-- It is listed with the offset at which the run goes on. -/
  next : ∀ g m', m.dispatch f = .next g m' → f.chunk.instructionAt f.start = .ok (text, g.next)
  /-- Also where it returns or fails, if it is read in full. -/
  reads : ∀ i g, f.readInstruction = (.ok i, g) →
    f.chunk.instructionAt f.start = .ok (text, g.next)
  /-- A load shows the index and the constant that it loads. -/
  loads : ∀ op g index k, f.readByte = (.ok op.toByte, g) → op.operandWidth ≠ 0 →
    (g.readIndex op).1 = .ok index → g.constant index = .ok k →
      m.dispatch f = m.load (g.readIndex op).2 (.ok index) ∧ ∃ margin,
        f.chunk.margin f.start = .ok margin ∧
        text = margin ++ Chunk.loadLine op index s!"'{k.toText}'"
  ended : EndsIn text "<end of chunk>" ↔ f.chunk.code[f.start]? = none
  truncated : EndsIn text "<truncated>" ↔ f.chunk.code[f.start]? ≠ none ∧
    ∃ n m', m.dispatch f = .failed (.truncated n) m'
  invalid : EndsIn text "<invalid constant>" ↔
    ∃ index m', m.dispatch f = .failed (.invalidConstant index) m'
  unknown : ∀ byte : UInt8, EndsIn text s!"Unknown opcode {byte}" ↔
    ∃ m', m.dispatch f = .failed (.unknownOpcode byte) m'

theorem shownAs (hs : f.start = f.next) {text : String} {next : Nat}
    (h : f.chunk.instructionAt f.start = .ok (text, next)) : m.ShownAs f text := by
  obtain ⟨margin, hm, rfl, hnext⟩ := Chunk.instructionAt_ok h
  have hreads (i : Instruction) (g : Frame) (hi : f.readInstruction = (.ok i, g)) :
      f.chunk.instructionAt f.start = .ok (margin ++ f.chunk.bodyAt f.start, g.next) := by
    obtain ⟨c, offset, start⟩ := f
    obtain rfl : start = offset := hs
    obtain ⟨-, byte, hb, hg⟩ := Chunk.wholeAt_of_read hi
    rw [h, hnext byte hb, hg]
  refine ⟨?_, hreads, ?_, ?_, ?_, ?_, ?_⟩
  · intro g m' hd
    obtain ⟨⟨i, hi, -⟩, -⟩ := dispatch_next hd
    exact hreads i g hi
  · intro op g index k hbyte hw hindex hk
    refine ⟨?_, margin, hm, ?_⟩
    · simp only [dispatch, hbyte, Opcode.ofByte?_toByte]
      rw [execute_of_operand m g hw, hindex]
    obtain ⟨hb, rfl⟩ := Frame.readByte_ok hbyte
    rcases Frame.readIndex_cases f.chunk f.next f.start hw with ⟨operand, ho, hi⟩ | ⟨-, n, hi⟩
    · rw [hi] at hindex
      cases hindex
      have hconstant : f.chunk.constants[Chunk.operandValue operand]? = some k := by
        unfold Frame.constant at hk
        split at hk
        · next hc =>
          cases hk
          exact hc
        · cases hk
      rw [hs, Chunk.bodyAt_of_operand hb (Opcode.ofByte?_toByte op) hw ho, hconstant]
    · rw [hi] at hindex
      cases hindex
  · rw [hs]
    exact f.endsIn_iff_earns (a := .ended) (by decide) margin
  · rw [hs]
    refine (f.endsIn_iff_earns (a := .truncated) (by decide) margin).trans ?_
    refine and_congr_right fun _ => exists_congr fun n => ?_
    exact (dispatch_ofReading_iff (e := .truncated n) trivial).symm
  · rw [hs]
    refine (f.endsIn_iff_earns (a := .invalid) (by decide) margin).trans ?_
    refine exists_congr fun index => ?_
    exact (dispatch_ofReading_iff (e := .invalidConstant index) trivial).symm
  · intro byte
    rw [dispatch_ofReading_iff (e := .unknownOpcode byte) trivial, hs]
    exact f.endsIn_unknown_iff byte margin

theorem note_traced {n : Machine} (ht : m.settings.trace = true) (h : m.note f = .ok n) :
    ∃ entry next, f.chunk.instructionAt f.start = .ok (TraceEntry.instruction entry, next) ∧
      n.trace = m.trace.push entry := by
  rw [note, if_pos ht] at h
  cases hr : f.chunk.instructionAt f.start with
  | error e =>
    rw [hr] at h
    cases h
  | ok r =>
    rw [hr] at h
    cases h
    exact ⟨_, r.2, rfl, rfl⟩

/-- The entry lists the instruction of a dispatch in the chunk. -/
structure Lists (c : Chunk) (d : Frame × Machine) (entry : TraceEntry) : Prop where
  chunk : d.1.chunk = c
  begins : d.1.start = d.1.next
  listed : ∃ next, c.instructionAt d.1.start = .ok (entry.instruction, next)

namespace Dispatches

variable {before : List (Frame × Machine)} {last : Frame × Machine}

/-- Each dispatch comes after one entry of the trace. -/
theorem traced (h : Dispatches f m before last) (ht : m.settings.trace = true) :
    ∃ entries, last.2.trace.toList = m.trace.toList ++ entries ∧
      List.Forall₂ (Lists f.chunk) (before ++ [last]) entries := by
  induction h with
  | last hn =>
    obtain ⟨entry, next, hl, hp⟩ := note_traced ht hn
    exact ⟨[entry], by rw [hp, Array.toList_push], .cons ⟨rfl, rfl, next, hl⟩ .nil⟩
  | @next f g m n m' before last hn hd _ ih =>
    obtain ⟨entry, next, hl, hp⟩ := note_traced ht hn
    have htrace : m'.trace = n.trace := by
      have hkept := (n.endures_dispatch f.beginOp).2
      rwa [hd] at hkept
    obtain ⟨⟨i, hi, -⟩, hsettings⟩ := dispatch_next hd
    obtain ⟨hc, -⟩ := Frame.readInstruction_ok hi
    obtain ⟨entries, he, hall⟩ := ih (by rw [hsettings, note_ok hn]; exact ht)
    rw [show g.chunk = f.chunk from hc] at hall
    refine ⟨entry :: entries, ?_, .cons ⟨rfl, rfl, next, hl⟩ hall⟩
    rw [he, htrace, hp, Array.toList_push, List.append_assoc, List.singleton_append]

/-- A run goes from instruction to instruction as a listing does. -/
theorem offsets (h : Dispatches f m before last) :
    f.chunk.offsetsFrom f.next =
      before.map (·.1.start) ++ f.chunk.offsetsFrom last.1.start := by
  induction h with
  | last => rfl
  | @next f g m n m' before last hn hd hrun ih =>
    obtain ⟨⟨i, hi, -⟩, -⟩ := dispatch_next hd
    obtain ⟨hc, -⟩ := Frame.readInstruction_ok hi
    have ho : f.chunk.offsetsFrom f.next = f.next :: f.chunk.offsetsFrom g.next :=
      Chunk.offsetsFrom_of_read hi
    rw [show g.chunk = f.chunk from hc] at ih
    rw [ho, ih]
    rfl

end Dispatches

theorem mapM_listingAt {c : Chunk} {ds : List (Frame × Machine)} {entries : List TraceEntry}
    (h : List.Forall₂ (Lists c) ds entries) :
    (ds.map (·.1.start)).mapM c.listingAt = .ok (entries.map TraceEntry.instruction) := by
  induction h with
  | nil => rfl
  | @cons d entry ds entries hd _ ih =>
    obtain ⟨next, hl⟩ := hd.listed
    rw [List.map_cons, List.mapM_cons, ih, Chunk.listingAt, hl]
    rfl

/-- A traced run lists one instruction after the other as they are listed without a run, and
each listing tells how its instruction is read. The end of the chunk is listed last, after all
other listings, exactly if the run comes to it. -/
theorem interpretChunk_listed (m m' : Machine) (c : Chunk) (v : Verdict)
    (ht : m.settings.trace = true) (h : m.interpretChunk c = (.ok v, m')) :
    ∃ before last entries, Dispatches (Frame.ofChunk c) m.cleared before last ∧
      m'.trace.toList = m.trace.toList ++ entries ∧
      List.Forall₂ (fun d entry => d.1.chunk = c ∧ d.2.ShownAs d.1 (TraceEntry.instruction entry))
        (before ++ [last]) entries ∧
      (c.code[last.1.start]? = none → ∃ listings margin, c.instructions = .ok listings ∧
        c.margin c.code.size = .ok margin ∧
        entries.map TraceEntry.instruction = listings ++ [margin ++ "<end of chunk>"]) ∧
      (c.code[last.1.start]? ≠ none → ∀ listings, c.instructions = .ok listings →
        entries.map TraceEntry.instruction <+: listings) ∧
      (c.lines.total < Word.size → ∃ listings, c.instructions = .ok listings) := by
  obtain ⟨before, last, hd, hend⟩ := dispatches_of_interpretChunk h
  obtain ⟨entries, htrace, hall⟩ := hd.traced ht
  have htexts := mapM_listingAt hall
  rw [List.map_append] at htexts
  have hoffsets : c.offsetsFrom 0 = before.map (·.1.start) ++ c.offsetsFrom last.1.start :=
    hd.offsets
  refine ⟨before, last, entries, hd, ?_, ?_, ?_, ?_, c.exists_instructions⟩
  · have hkept := (last.2.endures_dispatch last.1).2
    have hstep : (last.2.dispatch last.1).machine = m' := by
      rcases hend with ⟨-, hhalt⟩ | ⟨e, -, hfail, -⟩
      · rw [hhalt]
        rfl
      · rw [hfail]
        rfl
    rw [← hstep, hkept, htrace]
    rfl
  · refine hall.imp fun d entry hl => ⟨hl.chunk, ?_⟩
    obtain ⟨next, hn⟩ := hl.listed
    exact shownAs hl.begins (by rw [hl.chunk]; exact hn)
  · intro hnone
    obtain ⟨-, hbounds⟩ := hd.bounds (Nat.zero_le _)
    obtain ⟨-, hs, hle⟩ := hbounds last (by simp)
    have hsize : last.1.start = c.code.size :=
      Nat.le_antisymm (by rw [hs]; exact hle) (Array.getElem?_eq_none_iff.mp hnone)
    obtain ⟨listings, ends, hl, hends, hsplit⟩ := Chunk.mapM_append_ok htexts
    rw [hsize, c.offsetsFrom_size, List.append_nil] at hoffsets
    rw [← hoffsets] at hl
    have hends : [last.1.start].mapM c.listingAt = .ok ends := hends
    rw [hsize] at hends
    obtain ⟨margin, hm, rfl⟩ := Chunk.mapM_listingAt_size hends
    exact ⟨listings, margin, hl, hm, hsplit⟩
  · intro hsome listings hl
    obtain ⟨byte, hb⟩ := Option.ne_none_iff_exists'.mp hsome
    obtain ⟨hlt, -⟩ := Array.getElem?_eq_some_iff.mp hb
    rw [Chunk.instructions_eq, hoffsets, Chunk.offsetsFrom, dif_pos hlt, ← List.singleton_append,
      ← List.append_assoc] at hl
    obtain ⟨first, rest, hfirst, -, rfl⟩ := Chunk.mapM_append_ok hl
    obtain rfl : first = entries.map TraceEntry.instruction := Except.ok.inj (hfirst.symm.trans htexts)
    exact List.prefix_append _ _

/-- A load, a pop, and a load whose index is cut off. -/
theorem interpretChunk_listed_truncated :
    let c : Chunk := ⟨#[1, 0, 6, 2, 0], #[.text "a"], ⟨#[⟨1, 3⟩, ⟨2, 2⟩]⟩⟩
    let m := new ⟨1, true, false⟩
    m.settings.trace = true ∧ ∃ m' before last entries,
      m.interpretChunk c = (.ok (.runtimeError ⟨2, .truncated 5⟩), m') ∧
      Dispatches (Frame.ofChunk c) m.cleared before last ∧ m'.trace.toList = entries ∧
      List.Forall₂ (fun d entry => d.1.chunk = c ∧ d.2.ShownAs d.1 (TraceEntry.instruction entry))
        (before ++ [last]) entries ∧
      entries.map TraceEntry.instruction =
        ["0000    1 Constant            0 '\"a\"'", "0002    | Pop",
          "0003    2 ConstantLong     <truncated>"] := by
  intro c m
  have hv : (m.interpretChunk c).1 = .ok (.runtimeError ⟨2, .truncated 5⟩) := by rfl
  have htexts : (m.interpretChunk c).2.trace.toList.map TraceEntry.instruction =
      ["0000    1 Constant            0 '\"a\"'", "0002    | Pop",
        "0003    2 ConstantLong     <truncated>"] := by decide +kernel
  have hrun : m.interpretChunk c = (.ok (.runtimeError ⟨2, .truncated 5⟩), _) := Prod.ext hv rfl
  obtain ⟨before, last, entries, hd, htrace, hshown, -⟩ := interpretChunk_listed m _ c _ rfl hrun
  have htrace : (m.interpretChunk c).2.trace.toList = entries := htrace
  exact ⟨rfl, _, before, last, entries, hrun, hd, htrace, hshown, htrace ▸ htexts⟩

end Machine

end ExprMachine
