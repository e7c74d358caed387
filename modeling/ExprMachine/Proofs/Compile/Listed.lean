import ExprMachine.Proofs.Chunk.Margins
import ExprMachine.Proofs.Compile.Acceptance

/-! The listing of compiled code, instruction by instruction. It says what was emitted, and on
which line. -/

namespace ExprMachine

/-- What follows the margin of an instruction: the name of its opcode, and for a load the index
and the text of the constant that is loaded. -/
inductive Instruction.Shown (c : Chunk) (offset : Nat) : Instruction → String → Prop
  | op {code : Opcode} : c.code[offset]? = some code.toByte → Shown c offset (.op code) code.name
  | load {code : Opcode} {operand : List UInt8} {k : Constant} :
    c.code[offset]? = some code.toByte → code.operandWidth ≠ 0 →
    c.operandBytes? offset code.operandWidth = some operand →
    c.constants[Chunk.operandValue operand]? = some k →
      Shown c offset (.load k)
        (Chunk.loadLine code (Chunk.operandValue operand) s!"'{k.toText}'")

/-- How an emission is listed whose bytes are those from an offset up to another. -/
structure Emission.ListedAt (e : Emission) (c : Chunk) (offset after : Nat) (text : String) :
    Prop where
  reads : (Frame.mk c offset offset).readInstruction = (.ok e.instruction, ⟨c, after, offset⟩)
  lt : offset < after
  lines : ∀ k, offset ≤ k → k < after → c.lineAt k = .ok e.line
  /-- A bar stands for the line only where the byte before has the same. -/
  shown : ∃ mark body, text = marginText offset mark ++ body ∧ e.instruction.Shown c offset body ∧
    (mark = some e.line ∨ mark = none ∧ 0 < offset ∧ c.lineAt (offset - 1) = .ok e.line)
  complete : ¬ EndsIn text "<end of chunk>" ∧ ¬ EndsIn text "<truncated>" ∧
    ¬ EndsIn text "<invalid constant>" ∧ ∀ byte : UInt8, ¬ EndsIn text s!"Unknown opcode {byte}"

namespace Chunk

/-- From an offset on, the texts list the emissions one by one up to the end of the code. -/
inductive ListedFrom (c : Chunk) : Nat → List Emission → List String → Prop
  | done : ListedFrom c c.code.size [] []
  | next {offset after : Nat} {e : Emission} {es : List Emission} {text : String}
    {texts : List String} : e.ListedAt c offset after text → ListedFrom c after es texts →
      ListedFrom c offset (e :: es) (text :: texts)

variable {c : Chunk} {offset after : Nat}

theorem shown_of_read {i : Instruction} {g : Frame}
    (h : (Frame.mk c offset offset).readInstruction = (.ok i, g)) :
    i.Shown c offset (c.bodyAt offset) := by
  obtain ⟨byte, op, operand, hb, hop, ho, -, -, hi⟩ := Frame.readInstruction_bytes h
  have hbyte : c.code[offset]? = some op.toByte := by rw [Opcode.toByte_of_ofByte? hop]; exact hb
  by_cases hw : op.operandWidth = 0
  · have hplain := Frame.readInstruction_of_plain (f := ⟨c, offset, offset⟩) hb hop hw
    rw [h] at hplain
    obtain rfl : i = .op op := Except.ok.inj hplain
    have hbody : c.bodyAt offset = op.name := by
      simp only [bodyAt, show c.code[offset]? = some byte from hb, instructionText, hop, if_pos hw]
    rw [hbody]
    exact .op hbyte
  · rcases hi with ⟨-, hw'⟩ | ⟨k, hk, rfl⟩
    · exact absurd hw' hw
    · have hk : c.constants[operandValue operand]? = some k := hk
      rw [bodyAt_of_operand hb hop hw ho, hk]
      exact .load hbyte hw ho hk

theorem complete_of_read {i : Instruction} {g : Frame}
    (h : (Frame.mk c offset offset).readInstruction = (.ok i, g)) (start : String) :
    let text := start ++ c.bodyAt offset
    ¬ EndsIn text "<end of chunk>" ∧ ¬ EndsIn text "<truncated>" ∧
      ¬ EndsIn text "<invalid constant>" ∧
      ∀ byte : UInt8, ¬ EndsIn text s!"Unknown opcode {byte}" := by
  let f : Frame := ⟨c, offset, offset⟩
  have hread : f.readInstruction.1 = .ok i := congrArg Prod.fst h
  have hearns {a : Mark} (ha : a ∈ [.ended, .truncated, .invalid]) (hn : ¬ f.Earns a) :
      ¬ EndsIn (start ++ c.bodyAt offset) a.text := fun he =>
    hn ((f.endsIn_iff_earns ha start).mp he)
  refine ⟨hearns (a := .ended) (by decide) ?_, hearns (a := .truncated) (by decide) ?_,
    hearns (a := .invalid) (by decide) ?_, fun byte he => ?_⟩
  · intro he
    rw [f.readInstruction_of_none he] at hread
    cases hread
  · rintro ⟨-, n, he⟩
    rw [he] at hread
    cases hread
  · rintro ⟨index, he⟩
    rw [he] at hread
    cases hread
  · have hunknown := (f.endsIn_unknown_iff byte start).mp he
    rw [hunknown] at hread
    cases hread

variable {es : List Emission} {texts : List String}

theorem listedAt_of_read {e : Emission} (hw : c.lines.byteLines.length < Word.size)
    (hi : (Frame.mk c offset offset).readInstruction = (.ok e.instruction, ⟨c, after, offset⟩))
    (hlt : offset < after)
    (hl : ∀ k, offset ≤ k → k < after → c.lines.byteLines[k]? = some e.line) :
    ∃ text, c.listingAt offset = .ok text ∧ e.ListedAt c offset after text := by
  have hline : c.lineAt offset = .ok e.line := lineAt_of_byteLines hw (hl offset le_rfl hlt)
  have hbefore := lineAt_eq hw (offset - 1)
  obtain ⟨mark, hmark, hm⟩ : ∃ mark, (mark = some e.line ∨
      mark = none ∧ 0 < offset ∧ c.lineAt (offset - 1) = .ok e.line) ∧
      c.margin offset = .ok (marginText offset mark) := by
    refine ⟨_, ?_, margin_eq hline hbefore⟩
    split
    · next hsame =>
      rw [hbefore, ← hsame.2]
      exact .inr ⟨rfl, hsame.1, rfl⟩
    · exact .inl rfl
  obtain ⟨-, byte, hb, -⟩ := wholeAt_of_read hi
  have htext : c.listingAt offset = .ok (marginText offset mark ++ c.bodyAt offset) := by
    simp only [listingAt, instructionAt, hm, bodyAt, hb, bind, Except.bind]
    rfl
  exact ⟨_, htext, hi, hlt, fun k ho hk => lineAt_of_byteLines hw (hl k ho hk),
    ⟨mark, _, rfl, shown_of_read hi, hmark⟩, complete_of_read hi _⟩

/-- Code that is read as instructions is listed as these. -/
theorem listedFrom_of_decodes (hw : c.lines.byteLines.length < Word.size)
    (h : Decodes c offset es) :
    ∃ texts, (c.offsetsFrom offset).mapM c.listingAt = .ok texts ∧
      c.ListedFrom offset es texts := by
  induction h with
  | done => exact ⟨[], by rw [offsetsFrom_size]; rfl, .done⟩
  | @next offset after line i rest hi hlt hl _ ih =>
    obtain ⟨texts, htexts, hrest⟩ := ih
    obtain ⟨text, htext, hlisted⟩ := listedAt_of_read (e := ⟨i, line⟩) hw hi hlt hl
    refine ⟨text :: texts, ?_, .next hlisted hrest⟩
    rw [offsetsFrom_of_read hi, List.mapM_cons, htext, htexts]
    rfl

/-- The offsets at the front are those of the instructions. -/
theorem ListedFrom.offsets (h : c.ListedFrom offset es texts) :
    texts.map (fun text => (readMargin text).1) = c.offsetsFrom offset := by
  induction h with
  | done => rw [offsetsFrom_size, List.map_nil]
  | next hl _ ih =>
    obtain ⟨mark, body, rfl, -⟩ := hl.shown
    rw [offsetsFrom_of_read hl.reads, List.map_cons, ih, readMargin_marginText]

/-- The last number above is the line of the byte before, because all bytes of an instruction
have its line. -/
theorem ListedFrom.inferLines_eq {above : Option Nat} (h : c.ListedFrom offset es texts)
    (ha : 0 < offset → ∃ line, above = some line ∧ c.lineAt (offset - 1) = .ok line) :
    inferLines above texts = es.map fun e => some e.line := by
  induction h generalizing above with
  | done => rfl
  | @next offset after e es text texts hl _ ih =>
    have hnext : inferLines (some e.line) texts = es.map fun e => some e.line := by
      have hlt := hl.lt
      exact ih fun _ => ⟨e.line, rfl, hl.lines (after - 1) (by omega) (by omega)⟩
    obtain ⟨mark, body, rfl, -, hmark⟩ := hl.shown
    have hline : mark.or above = some e.line := by
      rcases hmark with rfl | ⟨rfl, hpos, hbefore⟩
      · rfl
      · obtain ⟨line, rfl, hline⟩ := ha hpos
        cases hbefore.symm.trans hline
        rfl
    rw [inferLines, readMargin_marginText]
    simp only [hline, hnext, List.map_cons]

end Chunk

end ExprMachine
