import Mathlib.Data.List.DropRight
import Mathlib.Data.List.FinRange
import ExprMachine.Chunk.Listing
import ExprMachine.Proofs.Machine.Reading

/-! Listing an instruction and reading it. The text of an instruction tells by its end what
becomes of it when it is read. -/

namespace ExprMachine

/-- The index that follows the opcode of a load, and the frame after it. -/
def Frame.readIndex (f : Frame) : Opcode → Except Fault Nat × Frame
  | .constantLong => f.readLong
  | _ => (f.readByte.1.map UInt8.toNat, f.readByte.2)

theorem Machine.execute_of_operand (m : Machine) (f : Frame) {op : Opcode}
    (h : op.operandWidth ≠ 0) :
    m.execute f op = m.load (f.readIndex op).2 (f.readIndex op).1 := by
  cases op <;> first | rfl | exact absurd rfl h

namespace Frame

theorem readByte_of_none {f : Frame} (h : f.chunk.code[f.next]? = none) :
    f.readByte = (.error (.truncated f.next), f) := by
  simp only [readByte, h]

/-- An index is read exactly if all of its bytes are there. -/
theorem readIndex_cases (c : Chunk) (offset start : Nat) {op : Opcode} (h : op.operandWidth ≠ 0) :
    (∃ operand, c.operandBytes? offset op.operandWidth = some operand ∧
      (Frame.mk c (offset + 1) start).readIndex op =
        (.ok (Chunk.operandValue operand), ⟨c, offset + 1 + op.operandWidth, start⟩)) ∨
    (c.operandBytes? offset op.operandWidth = none ∧
      ∃ n, ((Frame.mk c (offset + 1) start).readIndex op).1 = .error (.truncated n)) := by
  have hbyte {n : Nat} (hn : c.code[n]? = none) :
      (Frame.mk c n start).readByte = (.error (.truncated n), ⟨c, n, start⟩) := readByte_of_none hn
  have hread {n : Nat} {b : UInt8} (hn : c.code[n]? = some b) :
      (Frame.mk c n start).readByte = (.ok b, ⟨c, n + 1, start⟩) := readByte_of_code hn
  cases op with
  | constant =>
    cases ha : c.code[offset + 1]? with
    | none =>
      refine .inr ⟨by simp [Chunk.operandBytes?, Opcode.operandWidth, List.range_succ, ha], ?_⟩
      exact ⟨offset + 1, by simp only [readIndex, hbyte ha]; rfl⟩
    | some a =>
      refine .inl ⟨[a], by simp [Chunk.operandBytes?, Opcode.operandWidth, List.range_succ, ha], ?_⟩
      simp only [readIndex, hread ha]
      simp [Chunk.operandValue, Opcode.operandWidth, Except.map]
  | constantLong =>
    have hall : c.operandBytes? offset Opcode.constantLong.operandWidth =
        (do let a ← c.code[offset + 1]?; let b ← c.code[offset + 2]?; let d ← c.code[offset + 3]?
            some [a, b, d]) := by
      simp only [Chunk.operandBytes?, Opcode.operandWidth, List.range_succ, List.range_zero]
      simp [Option.bind_assoc, Nat.add_assoc]
    rw [hall]
    simp only [readIndex, readLong]
    cases ha : c.code[offset + 1]? with
    | none => exact .inr ⟨rfl, offset + 1, by simp only [hbyte ha]⟩
    | some a =>
      cases hb : c.code[offset + 2]? with
      | none => exact .inr ⟨rfl, offset + 2, by simp only [hread ha, hbyte hb]⟩
      | some b =>
        cases hd : c.code[offset + 3]? with
        | none => exact .inr ⟨rfl, offset + 3, by simp only [hread ha, hread hb, hbyte hd]⟩
        | some d =>
          have hvalue : Chunk.operandValue [a, b, d] =
              a.toNat * 65536 + b.toNat * 256 + d.toNat := by
            simp only [Chunk.operandValue, List.foldl_cons, List.foldl_nil]
            omega
          refine .inl ⟨[a, b, d], rfl, ?_⟩
          simp only [hread ha, hread hb, hread hd, hvalue, Opcode.operandWidth]
  | _ => exact absurd rfl h

variable {f : Frame} {byte : UInt8} {op : Opcode}

theorem readInstruction_of_none (h : f.chunk.code[f.next]? = none) :
    f.readInstruction.1 = .error (.truncated f.next) := by
  simp only [readInstruction, readByte_of_none h]

theorem readInstruction_of_unknown (hb : f.chunk.code[f.next]? = some byte)
    (hop : Opcode.ofByte? byte = none) : f.readInstruction.1 = .error (.unknownOpcode byte) := by
  simp only [readInstruction, readByte_of_code hb, hop]

theorem readInstruction_of_plain (hb : f.chunk.code[f.next]? = some byte)
    (hop : Opcode.ofByte? byte = some op) (hw : op.operandWidth = 0) :
    f.readInstruction.1 = .ok (.op op) := by
  simp only [readInstruction, readByte_of_code hb, hop]
  cases op <;> first | rfl | cases hw

theorem readInstruction_of_operand (hb : f.chunk.code[f.next]? = some byte)
    (hop : Opcode.ofByte? byte = some op) (hw : op.operandWidth ≠ 0) :
    let r := (Frame.mk f.chunk (f.next + 1) f.start).readIndex op
    f.readInstruction = (r.2.readLoad r.1, r.2) := by
  simp only [readInstruction, readByte_of_code hb, hop]
  cases op <;> first | rfl | exact absurd rfl hw

end Frame

/-! The ends of texts, and what they say. -/

def EndsIn (text tail : String) : Prop := tail.toList <:+ text.toList

theorem EndsIn.append (start : String) {text tail : String} (h : EndsIn text tail) :
    EndsIn (start ++ text) tail := by
  rw [EndsIn, String.toList_append]
  exact h.trans (List.suffix_append _ _)

theorem endsIn_append (start tail : String) : EndsIn (start ++ tail) tail := by
  rw [EndsIn, String.toList_append]
  exact List.suffix_append _ _

/-- What the text of an instruction ends in. -/
inductive Mark where
  | ended
  | truncated
  | invalid
  | quote
  | name (op : Opcode)
  | digit (d : Fin 10)
deriving DecidableEq

namespace Mark

def text : Mark → String
  | ended => "<end of chunk>"
  | truncated => "<truncated>"
  | invalid => "<invalid constant>"
  | quote => "'"
  | name op => op.name
  | digit d => String.singleton (Nat.digitChar d)

def all : List Mark :=
  [ended, truncated, invalid, quote] ++ Opcode.all.map name ++ (List.finRange 10).map digit

theorem mem_all (a : Mark) : a ∈ all := by
  cases a with
  | name op => cases op <;> decide
  | digit d => simp [all]
  | _ => decide

theorem eq_of_suffix {a b : Mark} (h : a.text.toList <:+ b.text.toList) : a = b := by
  have hall : ∀ a ∈ all, ∀ b ∈ all, a.text.toList.isSuffixOf b.text.toList = true → a = b := by
    decide +kernel
  exact hall a (mem_all a) b (mem_all b) (List.isSuffixOf_iff_suffix.mpr h)

/-- No text ends in two marks. -/
theorem unique {text : String} {a b : Mark} (ha : EndsIn text a.text) (hb : EndsIn text b.text) :
    a = b := by
  rcases List.suffix_or_suffix_of_suffix ha hb with h | h
  · exact eq_of_suffix h
  · exact (eq_of_suffix h).symm

end Mark

theorem exists_digit (byte : UInt8) : ∃ d, EndsIn (toString byte) (Mark.digit d).text := by
  have hall : ∀ n < 256, (Mark.digit ⟨n % 10, Nat.mod_lt n (by decide)⟩).text.toList.isSuffixOf
      (toString n).toList = true := by decide +kernel
  exact ⟨_, List.isSuffixOf_iff_suffix.mp (hall byte.toNat byte.toNat_lt)⟩

theorem rtakeWhile_digits {start ds : List Char} (h : ∀ d ∈ ds, d.isDigit = true) :
    (start ++ ' ' :: ds).rtakeWhile Char.isDigit = ds := by
  have hr : ∀ d ∈ ds.reverse, d.isDigit = true := fun d hd => h d (List.mem_reverse.mp hd)
  have hblank : ¬ ' '.isDigit = true := by decide
  rw [List.rtakeWhile, List.reverse_append, List.reverse_cons, List.append_assoc,
    List.takeWhile_append_of_pos hr, List.singleton_append, List.takeWhile_cons_of_neg hblank,
    List.append_nil, List.reverse_reverse]

def unknownText (byte : UInt8) : String := s!"Unknown opcode {byte}"

theorem unknownText_toList (byte : UInt8) :
    (unknownText byte).toList = "Unknown opcode".toList ++ ' ' :: Nat.toDigits 10 byte.toNat := by
  have htext : unknownText byte = "Unknown opcode " ++ byte.toNat.repr := rfl
  have hspace : "Unknown opcode ".toList = "Unknown opcode".toList ++ [' '] := by decide
  rw [htext, Nat.repr_eq_ofList_toDigits, String.toList_append, hspace, List.append_assoc,
    List.singleton_append, @String.toList_ofList (Nat.toDigits 10 byte.toNat)]

theorem eq_of_endsIn_unknown {start : String} {byte byte' : UInt8}
    (h : EndsIn (start ++ unknownText byte') (unknownText byte)) : byte = byte' := by
  obtain ⟨before, hb⟩ := h
  rw [String.toList_append, unknownText_toList, unknownText_toList, ← List.append_assoc,
    ← List.append_assoc] at hb
  have hdigits (n : Nat) : ∀ d ∈ Nat.toDigits 10 n, d.isDigit = true := fun d hd =>
    Nat.isDigit_of_mem_toDigits (by decide) (by decide) hd
  have hd := congrArg (List.rtakeWhile Char.isDigit) hb
  rw [rtakeWhile_digits (hdigits _), rtakeWhile_digits (hdigits _)] at hd
  have hn := congrArg (fun ds => Nat.ofDigitChars 10 ds 0) hd
  simp only [Nat.ofDigitChars_toDigits (b := 10) (by decide) (by decide)] at hn
  exact UInt8.toNat_inj.mp hn

namespace Chunk

/-- The listing of an instruction without its margin. -/
def bodyAt (c : Chunk) (offset : Nat) : String :=
  match c.code[offset]? with
  | none => "<end of chunk>"
  | some byte => c.instructionText offset byte

theorem instructionAt_ok {c : Chunk} {offset next : Nat} {text : String}
    (h : c.instructionAt offset = .ok (text, next)) :
    ∃ margin, c.margin offset = .ok margin ∧ text = margin ++ c.bodyAt offset ∧
      ∀ byte, c.code[offset]? = some byte → next = offset + instructionSize byte := by
  unfold instructionAt at h
  cases hm : c.margin offset with
  | error e =>
    rw [hm] at h
    cases h
  | ok margin =>
    refine ⟨margin, rfl, ?_⟩
    cases hb : c.code[offset]? with
    | none =>
      simp only [hm, hb, bind, Except.bind] at h
      cases hn : Word.add offset 1 with
      | error e =>
        rw [hn] at h
        cases h
      | ok n =>
        rw [hn] at h
        cases h
        exact ⟨by simp only [bodyAt, hb], nofun⟩
    | some byte =>
      simp only [hm, hb, bind, Except.bind] at h
      cases h
      refine ⟨by simp only [bodyAt, hb], ?_⟩
      rintro _ ⟨⟩
      rfl

/-- The name of a load, its index, and what is shown of the constant. -/
def loadLine (op : Opcode) (index : Nat) (shown : String) : String :=
  Padding.after 16 op.name ++ " " ++ Padding.before ' ' 4 (toString index) ++ " " ++ shown

theorem bodyAt_of_operand {c : Chunk} {offset : Nat} {byte : UInt8} {op : Opcode}
    {operand : List UInt8} (hb : c.code[offset]? = some byte)
    (hop : Opcode.ofByte? byte = some op) (hw : op.operandWidth ≠ 0)
    (ho : c.operandBytes? offset op.operandWidth = some operand) :
    c.bodyAt offset = loadLine op (operandValue operand)
      (match c.constants[operandValue operand]? with
        | some constant => s!"'{constant.toText}'"
        | none => "<invalid constant>") := by
  simp only [bodyAt, hb, instructionText, hop, if_neg hw, loadText, ho]
  rfl

end Chunk

namespace Frame

/-- What a mark says of the instruction that is read at the frame. -/
def Earns (f : Frame) : Mark → Prop
  | .ended => f.chunk.code[f.next]? = none
  | .truncated => f.chunk.code[f.next]? ≠ none ∧ ∃ n, f.readInstruction.1 = .error (.truncated n)
  | .invalid => ∃ index, f.readInstruction.1 = .error (.invalidConstant index)
  | .quote => ∃ k, f.readInstruction.1 = .ok (.load k)
  | .name op => f.readInstruction.1 = .ok (.op op)
  | .digit _ => ∃ byte, f.readInstruction.1 = .error (.unknownOpcode byte) ∧
      f.chunk.bodyAt f.next = unknownText byte

theorem exists_mark (f : Frame) :
    ∃ a : Mark, EndsIn (f.chunk.bodyAt f.next) a.text ∧ f.Earns a := by
  cases hb : f.chunk.code[f.next]? with
  | none => exact ⟨.ended, by simp only [Chunk.bodyAt, hb]; exact List.suffix_rfl, hb⟩
  | some byte =>
    have hsome : f.chunk.code[f.next]? ≠ none := by rw [hb]; exact nofun
    cases hop : Opcode.ofByte? byte with
    | none =>
      have hbody : f.chunk.bodyAt f.next = unknownText byte := by
        simp only [Chunk.bodyAt, hb, Chunk.instructionText, hop]
        rfl
      obtain ⟨d, hd⟩ := exists_digit byte
      refine ⟨.digit d, ?_, byte, readInstruction_of_unknown hb hop, hbody⟩
      rw [hbody]
      exact hd.append _
    | some op =>
      by_cases hw : op.operandWidth = 0
      · refine ⟨.name op, ?_, readInstruction_of_plain hb hop hw⟩
        simp only [Chunk.bodyAt, hb, Chunk.instructionText, hop, if_pos hw]
        exact List.suffix_rfl
      · have hread := readInstruction_of_operand hb hop hw
        rcases readIndex_cases f.chunk f.next f.start hw with ⟨operand, ho, hi⟩ | ⟨ho, n, hi⟩
        · rw [Chunk.bodyAt_of_operand hb hop hw ho]
          simp only [hi] at hread
          cases hk : f.chunk.constants[Chunk.operandValue operand]? with
          | none =>
            refine ⟨.invalid, endsIn_append _ _, Chunk.operandValue operand, ?_⟩
            rw [hread]
            simp only [readLoad, constant, hk]
            rfl
          | some k =>
            refine ⟨.quote, (endsIn_append _ _).append _, k, ?_⟩
            rw [hread]
            simp only [readLoad, constant, hk]
            rfl
        · refine ⟨.truncated, ?_, hsome, n, ?_⟩
          · simp only [Chunk.bodyAt, hb, Chunk.instructionText, hop, if_neg hw, Chunk.loadText, ho]
            have htail : EndsIn " <truncated>" Mark.truncated.text := endsIn_append " " _
            exact htail.append _
          · rw [hread, hi]
            rfl

/-- The marks that say why an instruction is not read stand for different faults. -/
theorem Earns.eq {f : Frame} {a b : Mark} (ha : a ∈ [.ended, .truncated, .invalid])
    (h : f.Earns a) (h' : f.Earns b) : a = b := by
  have hnone := f.readInstruction_of_none
  simp only [List.mem_cons, List.not_mem_nil, or_false] at ha
  rcases ha with rfl | rfl | rfl <;> cases b <;> simp only [Earns] at h h' <;> grind

theorem endsIn_iff_earns (f : Frame) {a : Mark} (ha : a ∈ [.ended, .truncated, .invalid])
    (start : String) : EndsIn (start ++ f.chunk.bodyAt f.next) a.text ↔ f.Earns a := by
  obtain ⟨b, hb, hearns⟩ := f.exists_mark
  constructor
  · intro h
    obtain rfl := Mark.unique h (hb.append start)
    exact hearns
  · intro h
    obtain rfl := h.eq ha hearns
    exact hb.append start

theorem endsIn_unknown_iff (f : Frame) (byte : UInt8) (start : String) :
    EndsIn (start ++ f.chunk.bodyAt f.next) (unknownText byte) ↔
      f.readInstruction.1 = .error (.unknownOpcode byte) := by
  obtain ⟨b, hb, hearns⟩ := f.exists_mark
  constructor
  · intro h
    obtain ⟨d, hd⟩ := exists_digit byte
    have hlast : EndsIn (unknownText byte) (Mark.digit d).text := hd.append "Unknown opcode "
    obtain rfl := Mark.unique (hlast.trans h) (hb.append start)
    obtain ⟨byte', hr, hbody⟩ := hearns
    rw [hbody] at h
    rw [hr, eq_of_endsIn_unknown h]
  · intro hr
    have hnone := f.readInstruction_of_none
    cases b with
    | digit d =>
      obtain ⟨byte', hr', hbody⟩ := hearns
      cases hr.symm.trans hr'
      rw [hbody]
      exact endsIn_append _ _
    | _ => simp only [Earns] at hearns; grind

end Frame

end ExprMachine
