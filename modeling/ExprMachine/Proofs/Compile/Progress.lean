import ExprMachine.Proofs.Compile.Acceptance

/-! There are no more turns than tokens, and no more diagnostics. Nothing beside the tokens is
looked at, and expressions are read to the nesting limit only. -/

namespace ExprMachine

namespace Reader

variable {s : Scan} {r r' : Reader} {bound levels : Nat}

/-- One pass compiles as parsing first and writing afterwards does, if the constants find
room. -/
theorem compile_of_reach {source : String} (hs : scan source = .ok s)
    (hl : distinctLiterals s.tokens ≤ Chunk.lastIndex + 1)
    (hr : Relation.ReflTransGen (Turned s) start r) (hend : r.index = s.tokens.length) :
    ∃ es : List ParseError, r.errors.toList = es.map .parse ∧
      compile source = if es = [] then .ok (r.chunk.writeOp .halt s.finish.line)
        else .error (es.map .parse) := by
  obtain ⟨herrors, hcode⟩ := reach_parse hr hend (start_room hl hr)
  refine ⟨(parse s.tokens).1.map fun m => m.error s.finish,
    by rw [herrors, List.map_map]; rfl, ?_⟩
  by_cases hm : (parse s.tokens).1 = []
  · rw [if_pos (List.map_eq_nil_iff.mpr hm)]
    exact (compile_eq_ok_iff hs).mpr ⟨_, Prod.ext hm rfl, hcode hm⟩
  · rw [if_neg fun hnil => hm (List.map_eq_nil_iff.mp hnil), compile_of_mistakes hs hl hm,
      List.map_map]
    rfl

theorem compile_errors_le {source : String} (hs : scan source = .ok s) {es : List CompileError}
    (h : compile source = .error es) : es.length ≤ s.tokens.length := by
  obtain ⟨r, hreach, -, hcompile⟩ := exists_turns hs
  have hsound := (sound_start s).reach hreach
  rw [hcompile] at h
  split at h
  · cases h
  · cases h
    exact Nat.le_trans hsound.errors_le hsound.within

/-- A turn of the loop, which is taken only before the end of the program. -/
def Turn (s : Scan) (bound levels : Nat) (q q' : Reader) : Prop :=
  (atEnd s.items).run q = .ok false q ∧ (turn s.items bound levels).run q = .ok () q'

/-- A statement comes to its end, or a diagnostic tells why it does not. -/
def Settles (result : EStateM.Result Obstacle Reader Unit) (q : Reader) : Prop :=
  result = .ok () q ∨ ∃ d, result = .error (.diagnostic d) q

theorem Follows.settles {α : Type} {p : Parsed α} {Q : α → Chunk → Prop}
    {result : EStateM.Result Obstacle Reader Unit} (h : Follows s r p Q result) :
    ∃ q, Settles result q ∧ Goes s r q := by
  cases h with
  | done hg => exact ⟨_, .inl rfl, hg⟩
  | mistaken hg => exact ⟨_, .inr ⟨_, rfl⟩, hg⟩
  | full hf => exact ⟨_, .inr ⟨_, rfl⟩, hf.goes⟩

theorem Turn.turned (hb : s.tokens.length < bound) (hl : nestingLimit < levels) {q q' : Reader}
    (h : Sound s q) (ht : Turn s bound levels q q') : Turned s q q' := by
  obtain ⟨hat, hrun⟩ := ht
  have hlt : q.index < s.tokens.length := by
    refine Nat.lt_of_not_le fun hle => ?_
    rw [atEnd_run h.within, List.getElem?_eq_none hle] at hat
    cases hat
  obtain ⟨r, hrun', hturned⟩ := turn_run hb hl hlt h.depth
  rw [hrun] at hrun'
  cases hrun'
  exact hturned

theorem Sound.turns (hb : s.tokens.length < bound) (hl : nestingLimit < levels) {q : Reader}
    (h : Relation.ReflTransGen (Turn s bound levels) start q) : Sound s q := by
  induction h with
  | refl => exact sound_start s
  | tail _ ht ih => exact ih.turned (ht.turned hb hl ih)

/-- Compiling in one pass ends on every source that scans, at the end of the program, and looks
at nothing beside the tokens. Each turn of its loop passes a token, so no more diagnostics are
told than there are tokens. Expressions are read to the nesting limit and no deeper, and no depth
is left behind by a statement. A diagnostic is a mistake in the program, unless there are too many
constants. With room for the constants, the result is that of `compile`. -/
theorem one_pass_ends {source : String} {s : Scan} (hs : scan source = .ok s)
    {bound levels : Nat} (hb : s.items.size ≤ bound) (hl : 512 < levels) :
    ∃ r, (program s.items bound levels).run start = .ok () r ∧
      r.index + 1 = s.items.size ∧ r.depth = 0 ∧ r.deepest ≤ 512 ∧
      r.errors.size ≤ s.items.size - 1 ∧
      (∀ q, Relation.ReflTransGen (Turn s bound levels) start q →
        q.index < s.items.size ∧ q.depth = 0 ∧ q.errors.size ≤ q.index ∧
        (q.index + 1 < s.items.size →
          (∃ q', Settles ((statement s.items bound levels).run q) q' ∧ q'.index < s.items.size ∧
            q'.depth = 0 ∧ q'.deepest ≤ 512) ∧
          ∃ q', Turn s bound levels q q' ∧ q.index < q'.index ∧ q'.index < s.items.size)) ∧
      (∀ d ∈ r.errors, (∃ i ≤ s.tokens.length, ∃ expected, d = .parse (s.unexpected i expected)) ∨
        d = .tooManyConstants) ∧
      (∀ k : Kind, (k.rule.precedence ≠ .none → k.rule.after ≠ none) ∧
        ∀ form, k.rule.first = some form ∨ k.rule.after = some form → form.Takes k) ∧
      (distinctLiterals s.tokens ≤ 16777216 → ∃ es : List ParseError,
        r.errors.toList = es.map .parse ∧
        compile source = if es = [] then .ok r.chunk else .error (es.map .parse)) ∧
      ∀ es, compile source = .error es → es.length ≤ s.tokens.length := by
  have hitems := s.size_items
  have hb' : s.tokens.length < bound := by omega
  obtain ⟨r, hrun, hend, hreach⟩ := program_run hb' hl
  have hsound := (sound_start s).reach hreach
  refine ⟨_, hrun, ?_, hsound.depth, hsound.deepest, ?_, fun q hq => ?_, hsound.known,
    fun k => ⟨fun hk => ?_, fun form => Kind.takes_of_rule⟩, fun hroom => ?_,
    fun es => compile_errors_le hs⟩
  · rw [hitems, ← hend]
  · have hle := hsound.errors_le
    show r.errors.size ≤ _
    omega
  · have hq := Sound.turns hb' hl hq
    have hin := hq.within
    refine ⟨by omega, hq.depth, hq.errors_le, fun hlt => ⟨?_, ?_⟩⟩
    · obtain ⟨q', hsettles, hg⟩ := (follows_statement hb' hl hin hq.depth).settles
      have hin' := hg.within
      exact ⟨q', hsettles, by omega, hg.depth.trans hq.depth, hg.deepest hq.deepest⟩
    · have hi : q.index < s.tokens.length := by omega
      obtain ⟨q', hturn, hturned⟩ := turn_run hb' hl hi hq.depth
      have hin' := hturned.moves.within
      refine ⟨q', ⟨?_, hturn⟩, hturned.moves.index_lt, by omega⟩
      rw [atEnd_run hin, List.getElem?_eq_getElem hi]
      rfl
  · cases hop : k.binaryOp? with
    | none => exact absurd (Kind.rule_of_no_operator hop) hk
    | some op =>
      obtain ⟨hafter, -⟩ := Kind.rule_of_operator hop
      rw [hafter]
      exact Option.some_ne_none _
  · exact compile_of_reach hs hroom hreach hend

/-- The first mistake is where the first statement begins, so a token is passed unread. -/
theorem one_pass_ends_recovering :
    let source := ") 1 + ; print (2; 3;"
    let bracket : Token := ⟨.rightParen, ")", ⟨1, 0⟩⟩
    let semicolon : Token := ⟨.semicolon, ";", ⟨1, 16⟩⟩
    let es : List ParseError := [⟨.operand, some bracket, ⟨1, 0⟩⟩,
      ⟨.closingParen, some semicolon, ⟨1, 16⟩⟩]
    ∃ s r, scan source = .ok s ∧ s.items.size = 11 ∧
      (program s.items 11 513).run start = .ok () r ∧ r.index = 10 ∧ r.depth = 0 ∧ r.deepest ≤ 512 ∧
      r.errors.toList = es.map .parse ∧ compile source = .error (es.map .parse) ∧
      distinctLiterals s.tokens ≤ 16777216 := by
  intro source bracket semicolon es
  have hscan : ((scan source).toOption.map fun s =>
      (s.items.size, decide (distinctLiterals s.tokens ≤ 16777216))) = some (11, true) := by
    decide +kernel
  have hcompile : compile source = .error (es.map .parse) := by decide +kernel
  obtain ⟨s, hs, he⟩ := exists_ok_of_toOption hscan
  obtain ⟨hlen, hroom⟩ := Prod.mk.inj he
  have hroom := of_decide_eq_true hroom
  obtain ⟨r, hrun, hend, hdepth, hdeepest, -, -, -, -, hagrees, -⟩ :=
    one_pass_ends hs (Nat.le_of_eq hlen) (Nat.lt_succ_self 512)
  obtain ⟨es', herrors, hc⟩ := hagrees hroom
  have hes : es' = es := by
    rw [hcompile] at hc
    split at hc
    · cases hc
    · exact (List.map_injective_iff.mpr (fun _ _ h => CompileError.parse.inj h)
        (Except.error.inj hc)).symm
  rw [hes] at herrors
  exact ⟨s, r, hs, hlen, hrun, by omega, hdepth, hdeepest, herrors, hcompile, hroom⟩

end Reader

end ExprMachine
