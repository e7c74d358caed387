import ExprMachine.Proofs.Compile.Postorder

/-! The constants of a program are the literals among its tokens, and its code fits into a chunk
exactly if they are not too many. -/

namespace ExprMachine

def Token.constant? (t : Token) : Option Constant :=
  match t.kind with
  | .number x => some (.number x.toBits)
  | .string s => some (.text s)
  | _ => none

def distinctLiterals (ts : List Token) : Nat := (ts.filterMap Token.constant?).dedup.length

theorem Derives.constants {level : Level} {ts : List Token} {e : Expr} (h : Derives level ts e)
    {m : Emission} (hm : m ∈ e.postorder) {k : Constant} (hk : m.instruction.constant? = some k) :
    k ∈ ts.filterMap Token.constant? := by
  induction h with
  | @literal t v hv =>
    rw [List.mem_filterMap]
    refine ⟨t, List.mem_singleton_self t, ?_⟩
    generalize ht : t.kind = kind at hv
    cases hv <;> simp [Expr.postorder] at hm <;> subst hm <;> cases hk <;>
      simp only [Token.constant?, ht]
  | group _ _ _ ih =>
    have hi := ih hm
    simp only [List.filterMap_cons, List.filterMap_append]
    split <;> simp [hi]
  | @unary t op ts e ht _ ih =>
    have hi : m ∈ e.postorder := by
      rw [Expr.postorder_unary, List.mem_append, List.mem_singleton] at hm
      rcases hm with hm | rfl
      · exact hm
      · cases hk
    simp only [List.filterMap_cons]
    split <;> simp [ih hi]
  | @binary level t op ls rs l r _ _ _ ihl ihr =>
    simp only [Expr.postorder, List.mem_append] at hm
    rw [List.filterMap_append, List.filterMap_cons]
    rcases hm with (hm | hm) | hm
    · exact List.mem_append_left _ (ihl hm)
    · refine List.mem_append_right _ ?_
      split <;> simp [ihr hm]
    · exfalso
      cases op <;> simp [BinaryOp.code] at hm <;> rcases hm with rfl | rfl <;> cases hk
  | tighter _ ih => exact ih hm

theorem DerivesProgram.constants {ts : List Token} {ss : List Stmt} (h : DerivesProgram ts ss)
    {last : Nat} {m : Emission} (hm : m ∈ programCode ss last) {k : Constant}
    (hk : m.instruction.constant? = some k) : k ∈ ts.filterMap Token.constant? := by
  induction h with
  | nil =>
    simp only [programCode, List.flatMap_nil, List.nil_append, List.mem_singleton] at hm
    subst hm
    cases hk
  | @cons ts us s rest hs _ ih =>
    rw [List.filterMap_append]
    rw [programCode_cons, List.mem_append] at hm
    rcases hm with hm | hm
    · refine List.mem_append_left _ ?_
      simp only [Stmt.postorder, List.mem_append, List.mem_singleton] at hm
      rcases hm with hm | rfl
      · cases hs with
        | printed hw he _ =>
          have hi := he.constants hm hk
          simp only [List.filterMap_cons, List.filterMap_append]
          split <;> simp [hi]
        | dropped he _ =>
          have hi := he.constants hm hk
          simp only [List.filterMap_append]
          simp [hi]
      · cases hk
    · exact List.mem_append_right _ (ih hm)

namespace Chunk

/-- A constant that finds room is interned, and has an index that an instruction can hold. -/
theorem add?_load {c d : Chunk} {k : Constant} {line : Nat} (h : c.add? ⟨.load k, line⟩ = some d) :
    ∃ c' index, c.intern k = (c', index) ∧ index ≤ lastIndex ∧ d.constants = c'.constants := by
  obtain ⟨c', index, hi⟩ : ∃ c' index, c.intern k = (c', index) := ⟨_, _, rfl⟩
  simp only [add?, writeConstant, hi] at h
  by_cases hle : index ≤ lastIndex
  · simp only [if_pos hle] at h
    cases h
    exact ⟨c', index, hi, hle, constants_writeAll _ _ _⟩
  · simp only [if_neg hle] at h
    cases h

theorem add?_constants {c d : Chunk} {e : Emission} (h : c.add? e = some d) (k : Constant) :
    k ∈ d.constants.toList ↔ k ∈ c.constants.toList ∨ e.instruction.constant? = some k := by
  obtain ⟨i, line⟩ := e
  cases i with
  | op code =>
    obtain rfl : c.writeOp code line = d := Option.some.inj h
    simp [Instruction.constant?, writeOp, write]
  | load constant =>
    obtain ⟨c', index, hi, -, hd⟩ := add?_load h
    rw [hd, Instruction.constant?, Option.some.injEq]
    rcases c.intern_cases constant with ⟨i, hsame, hmem⟩ | ⟨-, hnew⟩
    · rw [hsame] at hi
      cases hi
      constructor
      · exact .inl
      · rintro (h | rfl)
        · exact h
        · exact Array.mem_toList_iff.mpr (Array.mem_of_getElem? hmem)
    · rw [hnew] at hi
      cases hi
      simp [eq_comm]

theorem add?_size {c d : Chunk} {e : Emission} (h : c.add? e = some d)
    (hc : c.constants.size ≤ lastIndex + 1) : d.constants.size ≤ lastIndex + 1 := by
  obtain ⟨i, line⟩ := e
  cases i with
  | op code =>
    obtain rfl : c.writeOp code line = d := Option.some.inj h
    exact hc
  | load k =>
    obtain ⟨c', index, hi, hle, hd⟩ := add?_load h
    rw [hd]
    rcases c.intern_cases k with ⟨i, hsame, -⟩ | ⟨-, hnew⟩
    · rw [hsame] at hi
      cases hi
      exact hc
    · rw [hnew] at hi
      cases hi
      simpa using hle

theorem addAll?_size {c d : Chunk} {es : List Emission} (h : c.addAll? es = some d)
    (hc : c.constants.size ≤ lastIndex + 1) : d.constants.size ≤ lastIndex + 1 := by
  induction es generalizing c with
  | nil =>
    cases h
    exact hc
  | cons e es ih =>
    rw [addAll?, List.foldlM_cons] at h
    obtain ⟨c', he, hes⟩ := Option.bind_eq_some_iff.mp h
    exact ih hes (add?_size he hc)

theorem addAll?_constants {c d : Chunk} {es : List Emission} (h : c.addAll? es = some d)
    (k : Constant) : k ∈ d.constants.toList ↔
      k ∈ c.constants.toList ∨ ∃ e ∈ es, e.instruction.constant? = some k := by
  induction es generalizing c with
  | nil =>
    cases h
    simp
  | cons e es ih =>
    rw [addAll?, List.foldlM_cons] at h
    obtain ⟨c', he, hes⟩ := Option.bind_eq_some_iff.mp h
    rw [ih hes, add?_constants he]
    simp [or_assoc]

end Chunk

/-! Each literal is loaded by an instruction of its own. -/

theorem Token.ne_of_constant? {t u : Token} {k : Constant} (hk : t.constant? = some k)
    (hu : u.constant? = none) : t ≠ u := by
  rintro rfl
  rw [hu] at hk
  cases hk

theorem Derives.loads {level : Level} {ts : List Token} {e : Expr} (h : Derives level ts e)
    {t : Token} (ht : t ∈ ts) {k : Constant} (hk : t.constant? = some k) :
    ∃ m ∈ e.postorder, m.instruction.constant? = some k := by
  have hsilent {u : Token} (hu : u.constant? = none) : t ≠ u := Token.ne_of_constant? hk hu
  induction h with
  | @literal u v hv =>
    obtain rfl := List.mem_singleton.mp ht
    rw [v.postorder_eq]
    refine ⟨_, List.mem_singleton_self _, ?_⟩
    generalize hkind : t.kind = kind at hv
    cases hv <;> simp [Token.constant?, hkind] at hk <;> exact congrArg some hk
  | @group opening closing ts e hopen _ hclose ih =>
    have hfirst : opening.constant? = none := by simp [Token.constant?, hopen]
    have hlast : closing.constant? = none := by simp [Token.constant?, hclose]
    refine ih ?_
    simpa [hsilent hfirst, hsilent hlast] using ht
  | @unary u op ts e hu _ ih =>
    have hfirst : u.constant? = none := by
      generalize hkind : u.kind = kind at hu
      cases hu <;> simp [Token.constant?, hkind]
    obtain ⟨m, hm, hload⟩ := ih ((List.mem_cons.mp ht).resolve_left (hsilent hfirst))
    rw [Expr.postorder_unary]
    exact ⟨m, List.mem_append_left _ hm, hload⟩
  | @binary level u op ls rs l r hj _ _ ihl ihr =>
    have hinner : u.constant? = none := by
      generalize hkind : u.kind = kind at hj
      cases hj <;> simp [Token.constant?, hkind]
    have hmem : t ∈ ls ∨ t ∈ rs := by
      simpa [hsilent hinner] using ht
    simp only [Expr.postorder, List.mem_append]
    rcases hmem with hl | hr
    · obtain ⟨m, hm, hload⟩ := ihl hl
      exact ⟨m, .inl (.inl hm), hload⟩
    · obtain ⟨m, hm, hload⟩ := ihr hr
      exact ⟨m, .inl (.inr hm), hload⟩
  | tighter _ ih => exact ih ht

theorem DerivesProgram.loads {ts : List Token} {ss : List Stmt} (h : DerivesProgram ts ss)
    {t : Token} (ht : t ∈ ts) {k : Constant} (hk : t.constant? = some k) (last : Nat) :
    ∃ m ∈ programCode ss last, m.instruction.constant? = some k := by
  have hkind {u : Token} (hu : u.kind = .semicolon ∨ u.kind = .keyword .printWord) : t ≠ u := by
    refine Token.ne_of_constant? hk ?_
    rcases hu with hu | hu <;> simp [Token.constant?, hu]
  induction h with
  | nil => cases ht
  | cons hs _ ih =>
    rw [programCode_cons]
    rcases List.mem_append.mp ht with ht | ht
    · suffices hstmt : ∃ m ∈ Stmt.postorder _, m.instruction.constant? = some k by
        obtain ⟨m, hm, hload⟩ := hstmt
        exact ⟨m, List.mem_append_left _ hm, hload⟩
      cases hs with
      | printed hw he hsemi =>
        obtain ⟨m, hm, hload⟩ := he.loads (t := t)
          (by simpa [hkind (.inl hsemi), hkind (.inr hw)] using ht) hk
        exact ⟨m, List.mem_append_left _ hm, hload⟩
      | dropped he hsemi =>
        obtain ⟨m, hm, hload⟩ := he.loads (t := t) (by simpa [hkind (.inl hsemi)] using ht) hk
        exact ⟨m, List.mem_append_left _ hm, hload⟩
    · obtain ⟨m, hm, hload⟩ := ih ht
      exact ⟨m, List.mem_append_right _ hm, hload⟩

/-- The code of a program fits into a chunk exactly if there are no more literals than a chunk
can hold. -/
theorem exists_programCode_iff {ts : List Token} {ss : List Stmt} (h : DerivesProgram ts ss)
    (last : Nat) : (∃ c, Chunk.empty.addAll? (programCode ss last) = some c) ↔
      distinctLiterals ts ≤ Chunk.lastIndex + 1 := by
  constructor
  · rintro ⟨c, hc⟩
    have hsub : (ts.filterMap Token.constant?).dedup ⊆ c.constants.toList := by
      intro k hk
      obtain ⟨t, ht, hk⟩ := List.mem_filterMap.mp (List.mem_dedup.mp hk)
      exact (Chunk.addAll?_constants hc k).mpr (.inr (h.loads ht hk last))
    have hle := ((List.nodup_dedup _).subperm hsub).length_le
    rw [Array.length_toList] at hle
    exact Nat.le_trans hle (Chunk.addAll?_size hc (Nat.zero_le _))
  · intro hl
    exact Chunk.exists_addAll? hl (Chunk.poolWithin_empty _)
      fun _ hm _ hk => List.mem_dedup.mpr (h.constants hm hk)

end ExprMachine
