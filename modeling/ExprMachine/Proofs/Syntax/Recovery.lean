import ExprMachine.Proofs.Syntax.Embedding

/-! Where parsing goes on after a mistake. No statement is tried twice, but the recovery may stop
on a word that no statement begins with. -/

namespace ExprMachine

/-- The words that begin a statement in a larger language only. -/
def Kind.beginsForeign (k : Kind) : Bool := k.beginsStatement && k ≠ .keyword .printWord

def ForeignAt (ts : List Token) (n : Nat) : Prop := ∃ t ∈ ts[n]?, t.kind.beginsForeign = true

theorem Token.passed_eq_false {t : Token} (h : t.kind.beginsForeign = true) : t.passed = false := by
  obtain ⟨k, text, place⟩ := t
  cases k with
  | keyword w => cases w <;> first | rfl | cases h
  | _ => cases h

/-- A token that begins neither a statement nor an operand is itself the mistake. -/
theorem statement_of_not_passed {bound : Nat} {t : Token} (us : List Token)
    (h : t.passed = false) : statement bound (t :: us) = .error ⟨.operand, t :: us⟩ := by
  simp only [Token.passed, Kind.beginsOperand, Bool.or_eq_false_iff, decide_eq_false_iff_not,
    Option.isSome_eq_false_iff, Option.isNone_iff_eq_none] at h
  obtain ⟨hprint, ⟨hv, ho⟩, hp⟩ := h
  have hroom : nestingLimit = 511 + 1 := rfl
  rw [statement, if_neg hprint, statementBody, hroom, expression, operand_stop hv ho hp]

theorem exists_stop {bound : Nat} {t : Token} {us : List Token} {m : Mistake}
    (hb : (t :: us).length ≤ bound) (h : statement bound (t :: us) = .error m) :
    ∃ k ≤ us.length + 1, m.rest = (t :: us).drop k ∧ (0 < k ↔ t.passed = true) := by
  by_cases hp : t.passed = true
  · obtain ⟨hl, -⟩ := statement_follows (E := .before []) hb hb (.inl rfl)
    rw [h, if_pos hp] at hl
    obtain ⟨pre, rfl, -⟩ := hl
    exact ⟨pre.length + 1, by simp, by simp, by simp [hp]⟩
  · rw [statement_of_not_passed us (Bool.eq_false_iff.mpr hp)] at h
    cases h
    exact ⟨0, Nat.zero_le _, rfl, by simp [hp]⟩

theorem resume_drop (ts : List Token) :
    ∃ k ≤ ts.length, resume ts = ts.drop k ∧
      (k = 0 ↔ ∀ t ∈ ts.head?, t.kind.beginsStatement = true) := by
  induction ts with
  | nil => exact ⟨0, Nat.le_refl _, rfl, by simp⟩
  | cons t us ih =>
    by_cases hb : t.kind.beginsStatement = true
    · exact ⟨0, Nat.zero_le _, by simp [resume, hb], by simp [hb]⟩
    · by_cases hs : t.kind = .semicolon
      · exact ⟨1, by simp, by rw [resume, if_neg hb, if_pos hs]; rfl, by simp [hb]⟩
      · obtain ⟨k, hk, hr, -⟩ := ih
        exact ⟨k + 1, by simpa using hk, by simp [resume, hb, hs, hr], by simp [hb]⟩

/-- Recovery passes the first token and whatever was read, and stops at once only on a word that
begins a statement. -/
theorem recover_drop {t : Token} {us : List Token} {m : Mistake} {k : Nat}
    (hk : k ≤ us.length + 1) (hm : m.rest = (t :: us).drop k) (hp : 0 < k ↔ t.passed = true) :
    ∃ j ≤ us.length + 1, recover (t :: us) m = (t :: us).drop j ∧ 0 < j ∧ k ≤ j ∧
      (0 < k → (j = k ↔ ∀ u ∈ m.rest.head?, u.kind.beginsStatement = true)) := by
  rw [recover_cons]
  by_cases hpos : 0 < k
  · obtain ⟨i, hi, hr, hz⟩ := resume_drop m.rest
    have hlen : m.rest.length = us.length + 1 - k := by simp [hm]
    refine ⟨k + i, by omega, ?_, by omega, by omega, fun _ => ?_⟩
    · rw [if_pos (hp.mp hpos), hr, hm, List.drop_drop]
    · rw [← hz]
      omega
  · rw [if_neg fun h => hpos (hp.mpr h)]
    by_cases hs : t.kind = .semicolon
    · exact ⟨1, by omega, by simp [hs], Nat.one_pos, by omega, fun h => absurd h hpos⟩
    · obtain ⟨i, hi, hr, -⟩ := resume_drop us
      exact ⟨i + 1, by omega, by simp [hs, hr], Nat.succ_pos i, by omega, fun h => absurd h hpos⟩

end ExprMachine
