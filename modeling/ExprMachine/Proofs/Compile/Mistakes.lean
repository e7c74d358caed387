import ExprMachine.Proofs.Compile.Acceptance
import ExprMachine.Proofs.Syntax.Unfinished

/-! Which token the first mistake of a source is reported at, and what is expected there. -/

namespace ExprMachine

theorem Mistake.expected_error (finish : Place) (m : Mistake) :
    (m.error finish).expected = m.expected := by
  obtain ⟨x, rest⟩ := m
  cases rest <;> rfl

/-- The first error is the first mistake of the parse, unless it is that a literal finds no room. -/
theorem Reader.reach_first {s : Scan} {r r' : Reader} {count : Nat} {d : CompileError}
    {others : List CompileError} (hr : Relation.ReflTransGen (Turned s) r r')
    (hc : s.tokens.length - r.index ≤ count)
    (hd : r'.errors.toList = r.errors.toList ++ d :: others) :
    d = .tooManyConstants ∨ ∃ m ms,
      (statements s.tokens.length count (s.tokens.drop r.index)).1 = m :: ms ∧
        d = .parse (m.error s.finish) := by
  induction hr using Relation.ReflTransGen.head_induction_on generalizing count with
  | refl => simp at hd
  | @head r q hturn hreach ih =>
    have hlt := hturn.moves.index_lt
    have hwithin := hturn.moves.within
    have hi : r.index < s.tokens.length := by omega
    have hdrop := Scan.drop_of_token (List.getElem?_eq_getElem hi)
    obtain ⟨count, rfl⟩ : ∃ n, count = n + 1 := ⟨count - 1, by omega⟩
    have hfirst {e : CompileError} (he : q.errors = r.errors.push e) : d = e := by
      obtain ⟨ds, hds⟩ := reach_errors hreach
      rw [hds, he, Array.toList_push, List.append_assoc] at hd
      exact (List.cons.inj (List.append_cancel_left hd)).1.symm
    cases hturn with
    | read _ he hst =>
      have hc' : s.tokens.length - q.index ≤ count := by omega
      obtain hfull | ⟨m, ms, hms, hm⟩ := ih hc' (he ▸ hd)
      · exact .inl hfull
      · refine .inr ⟨m, ms, ?_, hm⟩
        rw [hdrop] at hst ⊢
        rw [statements_of_ok hst]
        exact hms
    | @mistaken stop expected _ _ _ he hst =>
      refine .inr ⟨⟨expected, s.tokens.drop stop⟩, ?_⟩
      rw [hdrop] at hst ⊢
      rw [statements_of_error hst, s.error_drop]
      exact ⟨_, rfl, hfirst he⟩
    | full _ _ _ he => exact .inl (hfirst he)

end ExprMachine
