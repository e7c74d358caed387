import ExprMachine.Proofs.Compile.Reading
import ExprMachine.Proofs.Syntax.Recovery

/-! Each turn of the loop over statements gets further, also after a mistake, and none gets past
the end. A turn either reads a statement or gives it up and looks for the next one. -/

namespace ExprMachine

namespace Scan

def semicolonBefore (s : Scan) : Nat → Bool
  | 0 => false
  | i + 1 => s.tokens[i]?.any (·.kind = .semicolon)

/-- The tokens that are left when the search for the next statement begins at an index. -/
def resumed (s : Scan) (i : Nat) : List Token :=
  if s.semicolonBefore i then s.tokens.drop i else resume (s.tokens.drop i)

variable {s : Scan} {i j : Nat}

theorem semicolonBefore_of_within (hw : Within (s.tokens.drop i) (s.tokens.drop j)) (hi : i < j)
    (hj : j ≤ s.tokens.length) : s.semicolonBefore j = false := by
  obtain ⟨pre, hpre, hplain⟩ := hw
  obtain ⟨j, rfl⟩ : ∃ k, j = k + 1 := ⟨j - 1, by omega⟩
  have hlen := congrArg List.length hpre
  simp only [List.length_append, List.length_drop] at hlen
  have hlt : j - i < pre.length := by omega
  have ht : s.tokens[j]? = some pre[j - i] := by
    have hget := congrArg (·[j - i]?) hpre
    simp only [List.getElem?_drop, List.getElem?_append_left hlt, List.getElem?_eq_getElem hlt]
      at hget
    rwa [Nat.add_sub_cancel' (by omega)] at hget
  simp only [semicolonBefore, ht, Option.any_some, decide_eq_false_iff_not]
  exact hplain _ (List.getElem_mem hlt)

/-- Recovery looks for the next statement from the mistake on, or after the first token if the
mistake is there. -/
theorem recover_eq_resumed {x : Expected} (hi : i < s.tokens.length) (hij : i ≤ j)
    (hj : j ≤ s.tokens.length)
    (h : statement s.tokens.length (s.tokens.drop i) = .error ⟨x, s.tokens.drop j⟩) :
    recover (s.tokens.drop i) ⟨x, s.tokens.drop j⟩ = s.resumed (if j = i then i + 1 else j) := by
  obtain ⟨t, ht⟩ : ∃ t, s.tokens[i]? = some t := ⟨_, List.getElem?_eq_getElem hi⟩
  have hb : (t :: s.tokens.drop (i + 1)).length ≤ s.tokens.length := by
    rw [← drop_of_token ht, List.length_drop]
    omega
  rw [drop_of_token ht] at h ⊢
  obtain ⟨k, hk, hm, hpassed⟩ := exists_stop hb h
  have hlen := congrArg List.length hm
  simp only [List.length_drop, List.length_cons] at hlen hk
  rw [recover_cons]
  by_cases hp : t.passed = true
  · obtain ⟨hleaves, -⟩ := statement_follows (E := .before []) hb hb (.inl rfl)
    rw [h] at hleaves
    have hw : Within (s.tokens.drop i) (s.tokens.drop j) := by
      rw [drop_of_token ht]
      exact (within_passed t _).trans hleaves
    have hpos := hpassed.mpr hp
    have hne : j ≠ i := by omega
    rw [if_pos hp, if_neg hne, resumed, semicolonBefore_of_within hw (by omega) hj]
    rfl
  · have hzero : ¬0 < k := fun hpos => hp (hpassed.mp hpos)
    have hbefore : s.semicolonBefore (i + 1) = decide (t.kind = .semicolon) := by
      simp only [semicolonBefore, ht, Option.any_some]
    have he : j = i := by omega
    rw [if_neg hp, if_pos he, resumed, hbefore]
    simp only [decide_eq_true_eq]

end Scan

namespace Reader

variable {s : Scan} {r r' : Reader} {bound levels count : Nat}

theorem afterSemicolon_run (h : r.index ≤ s.tokens.length) :
    (afterSemicolon s.items).run r = .ok (s.semicolonBefore r.index) r := by
  rw [afterSemicolon, bind_ok (EStateM.run_get r)]
  cases hi : r.index with
  | zero => rfl
  | succ i =>
    rw [if_pos (Nat.succ_pos i), bind_ok (previous_run hi (by omega)), EStateM.run_pure,
      Scan.token?_item]
    rfl

theorem synchronize_run {n : Nat} (h : r.index ≤ s.tokens.length)
    (hc : s.tokens.length - r.index < n) :
    ∃ j, (synchronize s.items n).run r = .ok () { r with index := j } ∧ r.index ≤ j ∧
      j ≤ s.tokens.length ∧ s.tokens.drop j = s.resumed r.index := by
  -- on the turns of the loop, each of which passes a token
  induction n generalizing r with
  | zero => exact absurd hc (Nat.not_lt_zero _)
  | succ n ih =>
    rw [synchronize, bind_ok (atEnd_run h)]
    cases ht : s.tokens[r.index]? with
    | none =>
      refine ⟨r.index, rfl, Nat.le_refl _, h, ?_⟩
      rw [Scan.resumed, Scan.drop_of_no_token ht, resume, ite_self]
    | some t =>
      have hlt := Scan.lt_of_token ht
      rw [if_neg (by simp), bind_ok (afterSemicolon_run h)]
      by_cases hs : s.semicolonBefore r.index = true
      · rw [if_pos hs]
        exact ⟨r.index, rfl, Nat.le_refl _, h, by rw [Scan.resumed, if_pos hs]⟩
      · rw [if_neg hs, bind_ok (peek_run h), Scan.token?_item, ht, Option.any_some]
        have hresumed : s.resumed r.index = resume (t :: s.tokens.drop (r.index + 1)) := by
          rw [Scan.resumed, if_neg hs, Scan.drop_of_token ht]
        rw [hresumed, resume]
        by_cases hb : t.kind.beginsStatement = true
        · rw [if_pos hb, if_pos hb]
          exact ⟨r.index, rfl, Nat.le_refl _, h, Scan.drop_of_token ht⟩
        · obtain ⟨j, hrun, hle, hj, hdrop⟩ := @ih r.moved hlt (by rw [moved_index]; omega)
          rw [if_neg hb, bind_ok (advance_run ht), if_neg hb]
          rw [moved_index] at hle
          refine ⟨j, hrun, by omega, hj, ?_⟩
          rw [hdrop, Scan.resumed, moved_index, Scan.semicolonBefore, ht, Option.any_some]
          simp only [decide_eq_true_eq]

theorem resumeFrom_run {start : Nat} (hb : s.tokens.length < bound) (hi : start ≤ r.index)
    (h : r.index ≤ s.tokens.length) (hs : start < s.tokens.length) :
    ∃ j, (resumeFrom s.items start bound).run r = .ok () { r with index := j } ∧ start < j ∧
      r.index ≤ j ∧ j ≤ s.tokens.length ∧
      s.tokens.drop j = s.resumed (if r.index = start then start + 1 else r.index) := by
  rw [resumeFrom, bind_ok (EStateM.run_get r)]
  by_cases he : r.index = start
  · obtain ⟨t, ht⟩ : ∃ t, s.tokens[r.index]? = some t := ⟨_, List.getElem?_eq_getElem (he ▸ hs)⟩
    obtain ⟨j, hrun, hle, hj, hdrop⟩ :=
      synchronize_run (r := r.moved) (n := bound) (Scan.lt_of_token ht) (by omega)
    rw [if_pos he, if_pos he, bind_ok (advance_run ht)]
    rw [moved_index, he] at hle hdrop
    exact ⟨j, hrun, hle, by omega, hj, hdrop⟩
  · obtain ⟨j, hrun, hle, hj, hdrop⟩ := synchronize_run (n := bound) h (by omega)
    rw [if_neg he, if_neg he]
    exact ⟨j, hrun, by omega, hle, hj, hdrop⟩

/-- What a turn of the loop over statements keeps, and that it gets further. -/
structure Moves (s : Scan) (r r' : Reader) : Prop where
  index_lt : r.index < r'.index
  within : r'.index ≤ s.tokens.length
  depth : r'.depth = r.depth
  deepest : r.deepest ≤ nestingLimit → r'.deepest ≤ nestingLimit
  pool : r.chunk.PoolWithin (s.literals r.index) → r'.chunk.PoolWithin (s.literals r'.index)

/-- Noting an error and passing tokens after what has been read. -/
theorem Goes.resumed {q : Reader} (hg : Goes s r q) (d : CompileError) {j : Nat}
    (hlt : r.index < j) (hq : q.index ≤ j) (hj : j ≤ s.tokens.length) :
    Moves s r { q.noted d with index := j } :=
  ⟨hlt, hj, hg.depth, hg.deepest, fun hp => (hg.pool hp).mono (Scan.literals_subset hq)⟩

/-- A turn reads the statement that the parse of the tokens finds, or tells the mistake and goes
on where the parse does, or has no room for a literal and looks for the next statement after it. -/
inductive Turned (s : Scan) (r r' : Reader) : Prop
  | read {st : Stmt} (hm : Moves s r r') (he : r'.errors = r.errors)
    (hst : ExprMachine.statement s.tokens.length (s.tokens.drop r.index) =
      .ok (st, s.tokens.drop r'.index))
    (hc : r.chunk.addAll? st.postorder = some r'.chunk)
  | mistaken {stop : Nat} {expected : Expected} (hm : Moves s r r') (hle : r.index ≤ stop)
    (hstop : stop ≤ s.tokens.length)
    (he : r'.errors = r.errors.push (.parse (s.unexpected stop expected)))
    (hst : ExprMachine.statement s.tokens.length (s.tokens.drop r.index) =
      .error ⟨expected, s.tokens.drop stop⟩)
    (hr : s.tokens.drop r'.index =
      recover (s.tokens.drop r.index) ⟨expected, s.tokens.drop stop⟩)
  | full {q : Reader} (hm : Moves s r r') (hf : Full s r q)
    (hp : ∃ t ∈ s.tokens[r.index]?, t.passed = true)
    (he : r'.errors = r.errors.push .tooManyConstants) (hc : r'.chunk = q.chunk)
    (hr : s.tokens.drop r'.index = resume (s.tokens.drop q.index))

theorem Turned.moves (h : Turned s r r') : Moves s r r' := by
  cases h with
  | read hm | mistaken hm | full hm => exact hm

/-- The literal that was passed last is no semicolon. -/
theorem Full.semicolonBefore {q : Reader} (h : Full s r q) : s.semicolonBefore q.index = false := by
  obtain ⟨i, t, k, hi, ht, hk⟩ := h.literal
  rw [hi, Scan.semicolonBefore, ht, Option.any_some, decide_eq_false_iff_not]
  intro hkind
  rw [Token.constant?, hkind] at hk
  cases hk

theorem turn_of_ok {u : Unit} (h : (statement s.items bound levels).run r = .ok u r') :
    (turn s.items bound levels).run r = .ok u r' := by
  simp only [EStateM.run] at h
  simp only [turn, EStateM.run, h]

theorem turn_of_diagnostic {d : CompileError}
    (h : (statement s.items bound levels).run r = .error (.diagnostic d) r') :
    (turn s.items bound levels).run r =
      (resumeFrom s.items r.index bound).run (r'.noted d) := by
  simp only [EStateM.run] at h
  simp only [turn, EStateM.run, h]

/-- A statement is given up at its first token if that begins none. -/
theorem statement_run_of_not_passed (hl : 0 < levels) (h : r.index ≤ s.tokens.length)
    (hd : r.depth = 0) (hp : ∀ t ∈ s.tokens[r.index]?, t.passed = false) :
    ∃ r', (statement s.items bound levels).run r =
      .error (.diagnostic (.parse (s.unexpected r.index .operand))) r' := by
  obtain ⟨levels, rfl⟩ : ∃ n, levels = n + 1 := ⟨levels - 1, by omega⟩
  have hrule : (s.item r.index).rule.first = none := by
    cases ht : s.tokens[r.index]? with
    | none =>
      rw [Scan.item_of_no_token ht]
      rfl
    | some t =>
      have hnot := hp t ht
      simp only [Token.passed, Kind.beginsOperand, Bool.or_eq_false_iff, decide_eq_false_iff_not,
        Option.isSome_eq_false_iff, Option.isNone_iff_eq_none] at hnot
      obtain ⟨-, ⟨hv, ho⟩, hg⟩ := hnot
      rw [Scan.item_of_token ht]
      exact Kind.rule_of_stop hv ho hg
  have hbody : (operandAndInfixes s.items (parsePrecedence s.items bound levels) bound
      .assignment).run r.entered =
        .error (.diagnostic (.parse (s.unexpected r.index .operand))) r.entered := by
    rw [operandAndInfixes, bind_ok (peek_run (r := r.entered) h)]
    simp only [entered_index, hrule]
    exact unexpected_run (r := r.entered) h .operand
  refine ⟨r.entered.left, ?_⟩
  rw [statement]
  obtain ⟨t, ht, hk, -⟩ | ⟨-, hrun⟩ := passes_run h (.keyword .printWord)
  · have hnot := hp t ht
    simp [Token.passed, hk] at hnot
  · have hroom : ¬nestingLimit ≤ r.depth := by
      rw [hd]
      decide
    have hparse : (parsePrecedence s.items bound (levels + 1) .assignment).run r =
        .error (.diagnostic (.parse (s.unexpected r.index .operand))) r.entered.left := by
      rw [parsePrecedence, bind_ok (EStateM.run_get r), if_neg hroom]
      exact deeper_of_error hbody
    rw [bind_ok hrun, statementBody, EStateM.run_bind, hparse]

/-- Every turn before the end is taken, whatever the tokens are. -/
theorem turn_run (hb : s.tokens.length < bound) (hl : nestingLimit < levels)
    (h : r.index < s.tokens.length) (hd : r.depth = 0) :
    ∃ r', (turn s.items bound levels).run r = .ok () r' ∧ Turned s r r' := by
  have hf := follows_statement hb hl (Nat.le_of_lt h) hd
  generalize hresult : (statement s.items bound levels).run r = result at hf
  have hresume {q : Reader} (hg : Goes s r q) (d : CompileError) :=
    resumeFrom_run (r := q.noted d) hb hg.index_le hg.within h
  cases hf with
  | @done r' st hg hst hc =>
    have hlen : (s.tokens.drop r.index).length ≤ s.tokens.length := by
      rw [List.length_drop]
      exact Nat.sub_le _ _
    obtain ⟨pre, hpre, hne, -⟩ := statement_sound hlen hst
    have hlt : r.index < r'.index := by
      have hpos := List.length_pos_iff.mpr hne
      have hcount := congrArg List.length hpre
      simp only [List.length_append, List.length_drop] at hcount
      omega
    exact ⟨r', turn_of_ok hresult,
      .read ⟨hlt, hg.within, hg.depth, hg.deepest, hg.pool⟩ hg.errors hst hc⟩
  | @mistaken q expected hg hst =>
    obtain ⟨j, hrun, hlt, hq, hj, hdrop⟩ := hresume hg (.parse (s.unexpected q.index expected))
    refine ⟨_, (turn_of_diagnostic hresult).trans hrun,
      .mistaken (hg.resumed _ hlt hq hj) hg.index_le hg.within ?_ hst ?_⟩
    · show q.errors.push _ = _
      rw [hg.errors]
    · show s.tokens.drop j = _
      rw [hdrop, Scan.recover_eq_resumed h hg.index_le hg.within hst]
      rfl
  | @full q hfull =>
    obtain ⟨j, hrun, hlt, hq, hj, hdrop⟩ := hresume hfull.goes .tooManyConstants
    have hne : q.index ≠ r.index := Nat.ne_of_gt hfull.passed
    refine ⟨_, (turn_of_diagnostic hresult).trans hrun,
      .full (hfull.goes.resumed _ hlt hq hj) hfull ?_ ?_ rfl ?_⟩
    · by_contra hnone
      have hnot : ∀ t ∈ s.tokens[r.index]?, t.passed = false := fun t ht =>
        Bool.eq_false_iff.mpr fun hp => hnone ⟨t, ht, hp⟩
      have hlevels : 0 < levels := by omega
      obtain ⟨r', hrun'⟩ := statement_run_of_not_passed hlevels (Nat.le_of_lt h) hd hnot
      rw [hresult] at hrun'
      cases hrun'
    · show q.errors.push _ = _
      rw [hfull.goes.errors]
    · show s.tokens.drop j = _
      rw [hdrop, noted_index, if_neg hne, Scan.resumed, hfull.semicolonBefore]
      rfl

theorem turns_run (hb : s.tokens.length < bound) (hl : nestingLimit < levels)
    (h : r.index ≤ s.tokens.length) (hd : r.depth = 0)
    (hc : s.tokens.length - r.index < count) :
    ∃ r', (turns s.items bound levels count).run r = .ok () r' ∧
      r'.index = s.tokens.length ∧ Relation.ReflTransGen (Turned s) r r' := by
  induction count generalizing r with
  | zero => exact absurd hc (Nat.not_lt_zero _)
  | succ count ih =>
    rw [turns, bind_ok (atEnd_run h)]
    by_cases hlt : r.index < s.tokens.length
    · obtain ⟨q, hrun, hturn⟩ := turn_run hb hl hlt hd
      have hm := hturn.moves
      have hindex := hm.index_lt
      obtain ⟨r', hrest, hend, hreach⟩ := ih hm.within (hm.depth.trans hd) (by omega)
      rw [List.getElem?_eq_getElem hlt, if_neg (by simp), bind_ok hrun]
      exact ⟨r', hrest, hend, .head hturn hreach⟩
    · have he : r.index = s.tokens.length := by omega
      rw [List.getElem?_eq_none (Nat.le_of_not_lt hlt), if_pos Option.isNone_none]
      exact ⟨r, rfl, he, .refl⟩

theorem program_run (hb : s.tokens.length < bound) (hl : nestingLimit < levels) :
    ∃ r, (program s.items bound levels).run start =
        .ok () { r with chunk := r.chunk.writeOp .halt s.finish.line } ∧
      r.index = s.tokens.length ∧ Relation.ReflTransGen (Turned s) start r := by
  obtain ⟨r, hrun, hend, hreach⟩ := turns_run (r := start) hb hl (Nat.zero_le _) rfl hb
  refine ⟨r, ?_, hend, hreach⟩
  have hplace : s.placeOf r.index = s.finish := by
    rw [Scan.placeOf, List.getElem?_eq_none (Nat.le_of_eq hend.symm)]
    rfl
  rw [program, bind_ok hrun, bind_ok (peek_run (Nat.le_of_eq hend)), Scan.place_item, hplace]
  rfl

/-- What holds of every reader before and after a turn. -/
structure Sound (s : Scan) (r : Reader) : Prop where
  within : r.index ≤ s.tokens.length
  depth : r.depth = 0
  deepest : r.deepest ≤ nestingLimit
  errors_le : r.errors.size ≤ r.index
  pool : r.chunk.PoolWithin (s.literals r.index)
  known : ∀ d ∈ r.errors,
    (∃ i ≤ s.tokens.length, ∃ expected, d = .parse (s.unexpected i expected)) ∨
      d = .tooManyConstants

theorem sound_start (s : Scan) : Sound s start where
  within := Nat.zero_le _
  depth := rfl
  deepest := Nat.zero_le _
  errors_le := Nat.le_refl _
  pool := Chunk.poolWithin_empty _
  known d hd := absurd hd (Array.not_mem_empty d)

theorem Sound.read (h : Sound s r) (hm : Moves s r r') (he : r'.errors = r.errors) :
    Sound s r' where
  within := hm.within
  depth := hm.depth.trans h.depth
  deepest := hm.deepest h.deepest
  errors_le := by
    rw [he]
    exact Nat.le_trans h.errors_le (Nat.le_of_lt hm.index_lt)
  pool := hm.pool h.pool
  known := he ▸ h.known

theorem Sound.noted (h : Sound s r) (hm : Moves s r r') {d : CompileError}
    (he : r'.errors = r.errors.push d)
    (hd : (∃ i ≤ s.tokens.length, ∃ expected, d = .parse (s.unexpected i expected)) ∨
      d = .tooManyConstants) : Sound s r' where
  within := hm.within
  depth := hm.depth.trans h.depth
  deepest := hm.deepest h.deepest
  errors_le := by
    rw [he, Array.size_push]
    exact Nat.succ_le_of_lt (Nat.lt_of_le_of_lt h.errors_le hm.index_lt)
  pool := hm.pool h.pool
  known e he' := by
    rw [he, Array.mem_push] at he'
    obtain he' | rfl := he'
    · exact h.known e he'
    · exact hd

theorem Sound.turned (h : Sound s r) (ht : Turned s r r') : Sound s r' := by
  cases ht with
  | read hm he => exact h.read hm he
  | mistaken hm _ hstop he => exact h.noted hm he (.inl ⟨_, hstop, _, rfl⟩)
  | full hm _ _ he => exact h.noted hm he (.inr rfl)

theorem Sound.reach (h : Sound s r) (hr : Relation.ReflTransGen (Turned s) r r') :
    Sound s r' := by
  induction hr with
  | refl => exact h
  | tail _ ht ih => exact ih.turned ht

end Reader

/-- Compiling comes to the turns of the loop, from the first token to the end. -/
theorem exists_turns {source : String} {s : Scan} (hs : scan source = .ok s) :
    ∃ r, Relation.ReflTransGen (Reader.Turned s) .start r ∧ r.index = s.tokens.length ∧
      compile source = if r.errors = #[] then .ok (r.chunk.writeOp .halt s.finish.line)
        else .error r.errors.toList := by
  have hb : s.tokens.length < s.items.size := by
    rw [s.size_items]
    exact Nat.lt_succ_self _
  obtain ⟨r, hrun, hend, hreach⟩ := Reader.program_run hb (Nat.lt_succ_self nestingLimit)
  refine ⟨r, hreach, hend, ?_⟩
  simp only [compile, hs, hrun, Reader.outcome, Array.isEmpty_iff]

end ExprMachine
