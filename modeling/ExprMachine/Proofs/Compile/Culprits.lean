import ExprMachine.Proofs.Compile.Acceptance
import ExprMachine.Proofs.Compile.Relabelling

/-! The tokens that instructions are emitted for: literals and operators. -/

namespace ExprMachine

/-- A token of the kind stands for the instruction: as a literal, or as an operator. -/
inductive Kind.Yields (k : Kind) : Instruction → Prop
  | literal {v : Literal} : k.Denotes v → Yields k v.instruction
  | unary {op : UnaryOp} : k.Negates op → Yields k (.op op.opcode)
  | binary {level : Level} {op : BinaryOp} {code : Opcode} : level.Joins k op →
    code ∈ op.opcodes → Yields k (.op code)

/-- The instructions that end statements and programs, and stand for no value. -/
def Instruction.Closes (i : Instruction) : Prop := i = .op .pop ∨ i = .op .print ∨ i = .op .halt

theorem Derives.origin {level : Level} {ts : List Token} {e : Expr} (h : Derives level ts e)
    {m : Emission} (hm : m ∈ e.postorder) :
    ∃ t ∈ ts, m.line = t.place.line ∧ t.kind.Yields m.instruction := by
  induction h with
  | @literal t v hv =>
    rw [v.postorder_eq, List.mem_singleton] at hm
    subst hm
    exact ⟨t, List.mem_singleton_self t, rfl, .literal hv⟩
  | group _ _ _ ih =>
    obtain ⟨t, ht, hline⟩ := ih hm
    exact ⟨t, by simp [ht], hline⟩
  | @unary t op ts e ht _ ih =>
    rw [Expr.postorder_unary, List.mem_append, List.mem_singleton] at hm
    rcases hm with hm | rfl
    · obtain ⟨u, hu, hline⟩ := ih hm
      exact ⟨u, List.mem_cons_of_mem t hu, hline⟩
    · exact ⟨t, List.mem_cons_self, rfl, .unary ht⟩
  | @binary level t op ls rs l r hj _ _ ihl ihr =>
    simp only [Expr.postorder, List.mem_append, op.code_eq, List.mem_map] at hm
    rcases hm with (hm | hm) | ⟨code, hcode, rfl⟩
    · obtain ⟨u, hu, hline⟩ := ihl hm
      exact ⟨u, by simp [hu], hline⟩
    · obtain ⟨u, hu, hline⟩ := ihr hm
      exact ⟨u, by simp [hu], hline⟩
    · exact ⟨t, by simp, rfl, .binary hj hcode⟩
  | tighter _ ih => exact ih hm

theorem DerivesStmt.origin {ts : List Token} {s : Stmt} (h : DerivesStmt ts s) {m : Emission}
    (hm : m ∈ s.postorder) (hc : ¬m.instruction.Closes) :
    ∃ t ∈ ts, m.line = t.place.line ∧ t.kind.Yields m.instruction := by
  rw [Stmt.postorder, List.mem_append, List.mem_singleton] at hm
  rcases hm with hm | rfl
  · cases h with
    | printed _ he _ | dropped he _ =>
      obtain ⟨t, ht, hline⟩ := he.origin hm
      exact ⟨t, by simp [ht], hline⟩
  · cases hp : s.printed <;> simp [hp, Instruction.Closes] at hc

theorem DerivesProgram.origin {ts : List Token} {ss : List Stmt} (h : DerivesProgram ts ss)
    {last : Nat} {m : Emission} (hm : m ∈ programCode ss last) (hc : ¬m.instruction.Closes) :
    ∃ t ∈ ts, m.line = t.place.line ∧ t.kind.Yields m.instruction := by
  induction h with
  | nil =>
    simp only [programCode, List.flatMap_nil, List.nil_append, List.mem_singleton] at hm
    subst hm
    exact absurd (.inr (.inr rfl)) hc
  | cons hs _ ih =>
    rw [programCode_cons, List.mem_append] at hm
    rcases hm with hm | hm
    · obtain ⟨t, ht, hline⟩ := hs.origin hm hc
      exact ⟨t, List.mem_append_left _ ht, hline⟩
    · obtain ⟨t, ht, hline⟩ := ih hm
      exact ⟨t, List.mem_append_right _ ht, hline⟩

/-- The instructions of a program, each with the number of the token it is emitted for in
place of a line: what the tokens have for lines when they are parsed, the instructions get. -/
def Scan.tokenCode (s : Scan) : List Emission :=
  programCode (parse (numbered s.tokens)).2 s.tokens.length

variable {source : String} {s : Scan} {c : Chunk}

theorem addAll?_tokenCode (hs : scan source = .ok s) (hc : compile source = .ok c) :
    Chunk.empty.addAll? (s.tokenCode.map (Emission.relabel (lineOf s.placeOf))) = some c := by
  obtain ⟨ss, hp, ha⟩ := (compile_eq_ok_iff hs).mp hc
  obtain rfl : (parse (numbered s.tokens)).2.map (Stmt.relabel (lineOf s.placeOf)) = ss :=
    congrArg Prod.snd ((parse_numbered s).symm.trans hp)
  rwa [Scan.tokenCode, ← programCode_numbered]

/-- What compiles is read back as the instructions of its tokens, each on the line of its
token. -/
theorem decodes_tokenCode (hs : scan source = .ok s) (hc : compile source = .ok c) :
    c.Aligned ∧ Decodes c 0 (s.tokenCode.map (Emission.relabel (lineOf s.placeOf))) := by
  have hplain : ∀ m ∈ s.tokenCode.map (Emission.relabel (lineOf s.placeOf)), m.instruction.Plain := by
    intro m hm
    obtain ⟨n, hn, rfl⟩ := List.mem_map.mp hm
    have hp : n.instruction.Plain := programCode_plain hn
    exact hp
  obtain ⟨-, hal, hdec⟩ := Chunk.addAll?_spec Chunk.aligned_empty hplain (addAll?_tokenCode hs hc)
  exact ⟨hal, hdec⟩

theorem tokenCode_origin (hs : scan source = .ok s) (hc : compile source = .ok c) {m : Emission}
    (hm : m ∈ s.tokenCode) (hclose : ¬m.instruction.Closes) :
    ∃ t, s.tokens[m.line]? = some t ∧ t.kind.Yields m.instruction := by
  obtain ⟨ss, hp, -⟩ := (compile_eq_ok_iff hs).mp hc
  have hmistakes : (parse (numbered s.tokens)).1 = [] :=
    List.map_eq_nil_iff.mp (congrArg Prod.fst ((parse_numbered s).symm.trans hp))
  obtain ⟨hd, -⟩ := parse_eq_iff.mp (Prod.ext hmistakes rfl)
  obtain ⟨u, hu, hline, hy⟩ := hd.origin hm hclose
  obtain ⟨k, hk, rfl⟩ := List.mem_mapIdx.mp hu
  exact ⟨s.tokens[k], by rw [hline]; exact List.getElem?_eq_getElem hk, hy⟩

end ExprMachine
