import ExprMachine.Proofs.Syntax.Climbing

/-! Parsing finds no mistake exactly in the programs of the grammar whose expressions do not
nest too deeply, and a program has one tree only. -/

namespace ExprMachine

theorem Derives.head {level : Level} {ts : List Token} {e : Expr} (h : Derives level ts e) :
    ∃ t us, ts = t :: us ∧ t.kind ≠ .keyword .printWord := by
  induction h with
  | @literal t v hv => exact ⟨t, [], rfl, by intro hk; rw [hk] at hv; cases hv⟩
  | @group opening _ _ _ ho _ _ _ => exact ⟨opening, _, rfl, by rw [ho]; decide⟩
  | @unary t _ _ _ ht _ _ => exact ⟨t, _, rfl, by intro hk; rw [hk] at ht; cases ht⟩
  | binary _ _ _ ih _ =>
    obtain ⟨t, us, rfl, ht⟩ := ih
    exact ⟨t, _, rfl, ht⟩
  | tighter _ ih => exact ih

theorem DerivesStmt.ne_nil {ts : List Token} {s : Stmt} (h : DerivesStmt ts s) : ts ≠ [] := by
  cases h <;> simp

theorem noOperatorFrom_semicolon {semicolon : Token} (hs : semicolon.kind = .semicolon)
    (n : Nat) (rest : List Token) : NoOperatorFrom n (semicolon :: rest) :=
  noOperatorFrom_of_kind rfl hs n rest

theorem statementBody_of_derives {ts rest : List Token} {e : Expr} {semicolon : Token}
    {bound : Nat} (printed : Bool) (h : Derives .equality ts e)
    (hs : semicolon.kind = .semicolon) (hn : e.nesting ≤ nestingLimit)
    (hb : (ts ++ semicolon :: rest).length ≤ bound) :
    statementBody bound printed (ts ++ semicolon :: rest) =
      .ok (⟨printed, e, semicolon.place.line⟩, rest) := by
  have he := expression_of_derives h hn (Nat.zero_le _) (noOperatorFrom_semicolon hs 0 rest) hb
  simp only [statementBody, he, expect, hs, if_true]

theorem statement_of_derives {ts rest : List Token} {s : Stmt} {bound : Nat}
    (h : DerivesStmt ts s) (hn : s.value.nesting ≤ nestingLimit)
    (hb : (ts ++ rest).length ≤ bound) : statement bound (ts ++ rest) = .ok (s, rest) := by
  cases h with
  | @printed word semicolon ts e hw he hs =>
    simp only [List.cons_append, List.append_assoc, List.nil_append, statement, hw, if_true]
    exact statementBody_of_derives true he hs hn (by simp at hb ⊢; omega)
  | @dropped semicolon ts e he hs =>
    obtain ⟨t, us, rfl, ht⟩ := he.head
    have hbody : statementBody bound false (t :: us ++ semicolon :: rest) = _ :=
      statementBody_of_derives false he hs hn (by simpa using hb)
    simpa only [List.cons_append, List.append_assoc, List.nil_append, statement, ht, if_false]
      using hbody

theorem statementBody_sound {ts rest : List Token} {s : Stmt} {bound : Nat} {printed : Bool}
    (hb : ts.length ≤ bound) (h : statementBody bound printed ts = .ok (s, rest)) :
    ∃ pre e semicolon, ts = pre ++ semicolon :: rest ∧ Derives .equality pre e ∧
      semicolon.kind = .semicolon ∧ s = ⟨printed, e, semicolon.place.line⟩ ∧
      e.nesting ≤ nestingLimit := by
  unfold statementBody at h
  split at h
  · next e us he =>
    obtain ⟨pre, rfl, hd, hn, _⟩ := expression_sound bound _ _ _ _ _ (Nat.zero_le _) hb he
    cases us with
    | nil => cases h
    | cons semicolon us =>
      by_cases hs : semicolon.kind = .semicolon
      · simp only [expect, hs, if_true] at h
        cases h
        exact ⟨pre, e, semicolon, rfl, hd, hs, rfl, hn⟩
      · simp only [expect, hs, if_false] at h
        cases h
  · cases h

theorem statement_sound {ts rest : List Token} {s : Stmt} {bound : Nat}
    (hb : ts.length ≤ bound) (h : statement bound ts = .ok (s, rest)) :
    ∃ pre, ts = pre ++ rest ∧ pre ≠ [] ∧ DerivesStmt pre s ∧
      s.value.nesting ≤ nestingLimit := by
  unfold statement at h
  split at h
  · next t us =>
    split at h
    · next ht =>
      obtain ⟨pre, e, semicolon, rfl, hd, hs, rfl, hn⟩ :=
        statementBody_sound (Nat.le_of_succ_le hb) h
      exact ⟨t :: (pre ++ [semicolon]), by simp, by simp, .printed ht hd hs, hn⟩
    · obtain ⟨pre, e, semicolon, he, hd, hs, rfl, hn⟩ := statementBody_sound hb h
      exact ⟨pre ++ [semicolon], by simpa using he, by simp, .dropped hd hs, hn⟩
  · obtain ⟨pre, e, semicolon, he, -⟩ := statementBody_sound hb h
    simp at he

/-! What one turn of the loop over statements does. -/

theorem statements_of_ok {bound count : Nat} {t : Token} {us rest : List Token} {s : Stmt}
    (h : statement bound (t :: us) = .ok (s, rest)) :
    statements bound (count + 1) (t :: us) =
      ((statements bound count rest).1, s :: (statements bound count rest).2) := by
  rw [statements, h]
  exact List.cons_ne_nil t us

theorem statements_of_error {bound count : Nat} {t : Token} {us : List Token} {m : Mistake}
    (h : statement bound (t :: us) = .error m) :
    statements bound (count + 1) (t :: us) =
      (m :: (statements bound count (recover (t :: us) m)).1,
        (statements bound count (recover (t :: us) m)).2) := by
  rw [statements, h]
  exact List.cons_ne_nil t us

theorem statements_of_derives {ts : List Token} {ss : List Stmt} {bound count : Nat}
    (h : DerivesProgram ts ss) (hn : ∀ s ∈ ss, s.value.nesting ≤ nestingLimit)
    (hc : ts.length ≤ count) (hb : ts.length ≤ bound) :
    statements bound count ts = ([], ss) := by
  induction h generalizing count with
  | nil => cases count <;> rfl
  | @cons ts us s rest hs _ ih =>
    have hpos := List.length_pos_iff.mpr hs.ne_nil
    simp only [List.length_append] at hc hb
    obtain ⟨count, rfl⟩ : ∃ n, count = n + 1 := ⟨count - 1, by omega⟩
    have hst : statement bound (ts ++ us) = .ok (s, us) :=
      statement_of_derives hs (hn s (by simp)) (by simpa using hb)
    have hrest : statements bound count us = ([], rest) :=
      ih (fun s hs => hn s (by simp [hs])) (by omega) (by omega)
    obtain ⟨t, vs, hts⟩ := List.exists_cons_of_length_pos (l := ts ++ us) (by simp; omega)
    rw [hts] at hst ⊢
    rw [statements, hst]
    simp only [hrest]
    exact List.cons_ne_nil _ _

theorem statements_sound {ts : List Token} {ss : List Stmt} {bound count : Nat}
    (hc : ts.length ≤ count) (hb : ts.length ≤ bound)
    (h : statements bound count ts = ([], ss)) :
    DerivesProgram ts ss ∧ ∀ s ∈ ss, s.value.nesting ≤ nestingLimit := by
  induction count generalizing ts ss with
  | zero =>
    have he : ts = [] := List.eq_nil_of_length_eq_zero (by omega)
    subst he
    cases h
    exact ⟨.nil, by simp⟩
  | succ count ih =>
    cases ts with
    | nil =>
      cases h
      exact ⟨.nil, by simp⟩
    | cons t us =>
      rw [statements] at h
      · split at h
        · next s rest hst =>
          obtain ⟨pre, hpre, hne, hd, hn⟩ := statement_sound hb hst
          have hpos := List.length_pos_iff.mpr hne
          have hlen := congrArg List.length hpre
          simp only [List.length_append, List.length_cons] at hlen hc hb
          obtain ⟨hm, hss⟩ := Prod.mk.inj h
          obtain ⟨hdr, hnr⟩ := ih (by omega) (by omega)
            (Prod.ext hm rfl : statements bound count rest = ([], _))
          rw [hpre, ← hss]
          exact ⟨.cons hd hdr, by simpa using ⟨hn, hnr⟩⟩
        · cases h
      · exact List.cons_ne_nil _ _

/-- Parsing without a mistake is the same as being derived without too deep a nest. -/
theorem parse_eq_iff {ts : List Token} {ss : List Stmt} :
    parse ts = ([], ss) ↔
      DerivesProgram ts ss ∧ ∀ s ∈ ss, s.value.nesting ≤ nestingLimit :=
  ⟨statements_sound (Nat.le_refl _) (Nat.le_refl _),
    fun h => statements_of_derives h.1 h.2 (Nat.le_refl _) (Nat.le_refl _)⟩

/-! Trees are unique, also where they nest too deeply to be parsed. -/

theorem Derives.unique {ts us rest rest' : List Token} {e e' : Expr}
    (h : Derives .equality ts e) (h' : Derives .equality us e')
    (hr : NoOperatorFrom 0 rest) (hr' : NoOperatorFrom 0 rest')
    (heq : ts ++ rest = us ++ rest') : e = e' ∧ ts = us := by
  have he := expression_of_derives h (Nat.le_max_left e.nesting e'.nesting) (Nat.zero_le _) hr
    (Nat.le_refl (ts ++ rest).length)
  have he' := expression_of_derives h' (Nat.le_max_right e.nesting e'.nesting) (Nat.zero_le _) hr'
    (Nat.le_of_eq (congrArg List.length heq.symm))
  rw [← heq, he] at he'
  obtain ⟨rfl, rfl⟩ := Prod.mk.inj (Except.ok.inj he')
  exact ⟨rfl, List.append_cancel_right heq⟩

theorem DerivesStmt.unique {ts us rest rest' : List Token} {s s' : Stmt}
    (h : DerivesStmt ts s) (h' : DerivesStmt us s') (heq : ts ++ rest = us ++ rest') :
    s = s' ∧ ts = us := by
  cases h with
  | @printed word semicolon ts e hw he hs =>
    cases h' with
    | @printed word' semicolon' us e' hw' he' hs' =>
      simp only [List.cons_append, List.append_assoc, List.nil_append, List.cons.injEq] at heq
      obtain ⟨rfl, heq⟩ := heq
      obtain ⟨rfl, rfl⟩ := he.unique he' (noOperatorFrom_semicolon hs 0 rest)
        (noOperatorFrom_semicolon hs' 0 rest') heq
      obtain ⟨rfl, -⟩ := List.cons.inj (List.append_cancel_left heq)
      exact ⟨rfl, rfl⟩
    | dropped he' =>
      obtain ⟨t, vs, rfl, ht⟩ := he'.head
      obtain ⟨rfl, -⟩ := List.cons.inj heq
      exact absurd hw ht
  | @dropped semicolon ts e he hs =>
    cases h' with
    | printed hw' =>
      obtain ⟨t, vs, rfl, ht⟩ := he.head
      obtain ⟨rfl, -⟩ := List.cons.inj heq
      exact absurd hw' ht
    | @dropped semicolon' us e' he' hs' =>
      simp only [List.append_assoc, List.cons_append, List.nil_append] at heq
      obtain ⟨rfl, rfl⟩ := he.unique he' (noOperatorFrom_semicolon hs 0 rest)
        (noOperatorFrom_semicolon hs' 0 rest') heq
      obtain ⟨rfl, -⟩ := List.cons.inj (List.append_cancel_left heq)
      exact ⟨rfl, rfl⟩

theorem DerivesProgram.unique {ts : List Token} {ss ss' : List Stmt}
    (h : DerivesProgram ts ss) (h' : DerivesProgram ts ss') : ss = ss' := by
  induction h generalizing ss' with
  | nil =>
    generalize hts : ([] : List Token) = ts at h'
    cases h' with
    | nil => rfl
    | cons hs =>
      exact absurd (List.append_eq_nil_iff.mp hts.symm).1 hs.ne_nil
  | @cons ts us s rest hs _ ih =>
    generalize hts : ts ++ us = vs at h'
    cases h' with
    | nil =>
      exact absurd (List.append_eq_nil_iff.mp hts).1 hs.ne_nil
    | @cons ts' us' s' rest' hs' hr' =>
      obtain ⟨rfl, rfl⟩ := hs.unique hs' hts
      obtain rfl := List.append_cancel_left hts
      rw [ih hr']

end ExprMachine
