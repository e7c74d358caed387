import ExprMachine.Proofs.Syntax.Programs

/-! A text that ends in a semicolon is parsed alike wherever it stands and whatever follows
it: no expression runs past the semicolon, and neither does the search for the next statement. -/

namespace ExprMachine

def Expr.down (n : Nat) : Expr → Expr
  | literal value line => .literal value (line + n)
  | group inner => .group (inner.down n)
  | unary op line operand => .unary op (line + n) (operand.down n)
  | binary op line left right => .binary op (line + n) (left.down n) (right.down n)

def Stmt.down (n : Nat) (s : Stmt) : Stmt := ⟨s.printed, s.value.down n, s.line + n⟩

/-- Where tokens stand in a longer text: how their places change, by how many lines they move
down, and which tokens follow them. -/
structure Embedding where
  move : Place → Place
  lines : Nat
  line_move : ∀ p, (move p).line = p.line + lines
  tail : List Token

namespace Embedding

def token (E : Embedding) (t : Token) : Token := { t with place := E.move t.place }

def tokens (E : Embedding) (ts : List Token) : List Token := ts.map E.token ++ E.tail

def mistake (E : Embedding) (m : Mistake) : Mistake := ⟨m.expected, E.tokens m.rest⟩

@[simp] theorem kind_token (E : Embedding) (t : Token) : (E.token t).kind = t.kind := rfl

@[simp] theorem line_token (E : Embedding) (t : Token) :
    (E.token t).place.line = t.place.line + E.lines := E.line_move t.place

@[simp] theorem tokens_cons (E : Embedding) (t : Token) (ts : List Token) :
    E.tokens (t :: ts) = E.token t :: E.tokens ts := rfl

@[simp] theorem tokens_nil (E : Embedding) : E.tokens [] = E.tail := rfl

end Embedding

def EndsStatement (ts : List Token) : Prop := ∃ init t, ts = init ++ [t] ∧ t.kind = .semicolon

/-- The second tokens are the end of the first, and no semicolon is lost. -/
def Within (ts rest : List Token) : Prop :=
  ∃ pre, ts = pre ++ rest ∧ ∀ t ∈ pre, t.kind ≠ .semicolon

namespace Within

theorem refl (ts : List Token) : Within ts ts := ⟨[], rfl, List.forall_mem_nil _⟩

theorem trans {ts us vs : List Token} (h : Within ts us) (h' : Within us vs) : Within ts vs := by
  obtain ⟨pre, rfl, hp⟩ := h
  obtain ⟨pre', rfl, hp'⟩ := h'
  refine ⟨pre ++ pre', (List.append_assoc _ _ _).symm, ?_⟩
  intro t ht
  exact (List.mem_append.mp ht).elim (hp t) (hp' t)

theorem cons {t : Token} {ts rest : List Token} (ht : t.kind ≠ .semicolon) (h : Within ts rest) :
    Within (t :: ts) rest := by
  obtain ⟨pre, rfl, hp⟩ := h
  exact ⟨t :: pre, rfl, List.forall_mem_cons.mpr ⟨ht, hp⟩⟩

theorem length_le {ts rest : List Token} (h : Within ts rest) : rest.length ≤ ts.length := by
  obtain ⟨pre, rfl, -⟩ := h
  simp

theorem endsStatement {ts rest : List Token} (h : Within ts rest) (he : EndsStatement ts) :
    EndsStatement rest := by
  obtain ⟨pre, rfl, hp⟩ := h
  obtain ⟨init, t, he, ht⟩ := he
  rcases List.eq_nil_or_concat rest with rfl | ⟨mid, u, rfl⟩
  · rw [List.append_nil] at he
    exact absurd ht (hp t (by simp [he]))
  · rw [List.concat_eq_append, ← List.append_assoc] at he
    obtain ⟨-, hu⟩ := List.append_inj' he rfl
    cases hu
    exact ⟨mid, t, List.concat_eq_append, ht⟩

end Within

/-- Nothing that follows these tokens matters to the statement they begin with. -/
def Embedding.Closes (E : Embedding) (ts : List Token) : Prop := E.tail = [] ∨ EndsStatement ts

theorem Embedding.Closes.within {E : Embedding} {ts rest : List Token} (h : E.Closes ts)
    (hw : Within ts rest) : E.Closes rest :=
  h.imp_right hw.endsStatement

theorem Embedding.Closes.tail {E : Embedding} {t : Token} {ts : List Token}
    (h : E.Closes (t :: ts)) (ht : t.kind ≠ .semicolon) : E.Closes ts :=
  h.within (.cons ht (.refl ts))

theorem Embedding.Closes.nil {E : Embedding} (h : E.Closes []) : E.tail = [] := by
  rcases h with h | ⟨init, t, h, -⟩
  · exact h
  · simp at h

namespace Kind

theorem ne_semicolon_of_unaryOp? {k : Kind} {op : UnaryOp} (h : k.unaryOp? = some op) :
    k ≠ .semicolon := by
  rintro rfl
  cases h

theorem ne_semicolon_of_binaryOp? {k : Kind} {op : BinaryOp} (h : k.binaryOp? = some op) :
    k ≠ .semicolon := by
  rintro rfl
  cases h

end Kind

def Parsed.left {α : Type} : Parsed α → List Token
  | .ok (_, rest) => rest
  | .error m => m.rest

def Embedding.result {α : Type} (E : Embedding) (lift : α → α) : Parsed α → Parsed α
  | .ok (a, rest) => .ok (lift a, E.tokens rest)
  | .error m => .error (E.mistake m)

/-- The second parse does with the embedded tokens what the first does with the tokens, and no
semicolon among `ts` is passed. -/
structure Embedding.Follows (E : Embedding) (ts : List Token) (r r' : Parsed Expr) : Prop where
  within : Within ts r.left
  eq : r' = E.result (Expr.down E.lines) r

theorem Embedding.Follows.mono {E : Embedding} {ts us : List Token} {r r' : Parsed Expr}
    (h : E.Follows us r r') (hw : Within ts us) : E.Follows ts r r' :=
  ⟨hw.trans h.within, h.eq⟩

def Parsed.andThen (r : Parsed Expr) (k : Expr → List Token → Parsed Expr) : Parsed Expr :=
  match r with
  | .ok (e, rest) => k e rest
  | .error m => .error m

theorem Embedding.Follows.andThen {E : Embedding} {ts : List Token} {r r' : Parsed Expr}
    {k k' : Expr → List Token → Parsed Expr} (h : E.Follows ts r r')
    (hk : ∀ e rest, Within ts rest → E.Follows ts (k e rest) (k' (e.down E.lines) (E.tokens rest))) :
    E.Follows ts (r.andThen k) (r'.andThen k') := by
  obtain ⟨hw, rfl⟩ := h
  cases r with
  | error m => exact ⟨hw, rfl⟩
  | ok result => exact hk result.1 result.2 hw

theorem Embedding.mistake_nil {E : Embedding} (h : E.tail = []) (expected : Expected) :
    E.mistake ⟨expected, []⟩ = ⟨expected, []⟩ := by
  rw [mistake, tokens_nil, h]

theorem expect_tokens {E : Embedding} {ts : List Token} (hc : E.Closes ts) (kind : Kind)
    (expected : Expected) :
    expect kind expected (E.tokens ts) = E.result E.token (expect kind expected ts) := by
  cases ts with
  | nil =>
    rw [E.tokens_nil, hc.nil]
    simp only [expect, Embedding.result, Embedding.mistake_nil hc.nil]
  | cons t us =>
    rw [E.tokens_cons]
    by_cases ht : t.kind = kind
    · have he : (E.token t).kind = kind := ht
      rw [expect, expect, if_pos ht, if_pos he]
      rfl
    · have he : (E.token t).kind ≠ kind := ht
      rw [expect, expect, if_neg ht, if_neg he]
      rfl

theorem expect_cases (kind : Kind) (expected : Expected) (ts : List Token) :
    (∃ t rest, ts = t :: rest ∧ t.kind = kind ∧ expect kind expected ts = .ok (t, rest)) ∨
      expect kind expected ts = .error ⟨expected, ts⟩ := by
  cases ts with
  | nil => exact .inr rfl
  | cons t us =>
    by_cases ht : t.kind = kind
    · exact .inl ⟨t, us, rfl, ht, by rw [expect, if_pos ht]⟩
    · exact .inr (by rw [expect, if_neg ht])

section Parsing

variable {E : Embedding} {n : Nat} {parse parse' : Nat → List Token → Parsed Expr}

theorem operators_nil (strength b : Nat) (left : Expr) :
    operators parse strength b left [] = .ok (left, []) := by
  cases b <;> rfl

theorem operators_nil_follows (hc : E.Closes []) (strength b b' : Nat) (left : Expr) :
    E.Follows [] (operators parse strength b left [])
      (operators parse' strength b' (left.down E.lines) (E.tokens [])) := by
  rw [E.tokens_nil, hc.nil, operators_nil, operators_nil]
  refine ⟨.refl [], ?_⟩
  rw [Embedding.result, E.tokens_nil, hc.nil]

theorem operators_follows
    (hp : ∀ strength ts, ts.length ≤ n → E.Closes ts →
      E.Follows ts (parse strength ts) (parse' strength (E.tokens ts)))
    (strength : Nat) {b b' : Nat} {ts : List Token} (hn : ts.length ≤ n) (hb : ts.length ≤ b)
    (hb' : ts.length ≤ b') (hc : E.Closes ts) (left : Expr) :
    E.Follows ts (operators parse strength b left ts)
      (operators parse' strength b' (left.down E.lines) (E.tokens ts)) := by
  -- On the bound of the text alone: both bounds are lengths, so neither stops a loop early.
  induction b generalizing ts b' left with
  | zero =>
    have he : ts = [] := List.eq_nil_of_length_eq_zero (by omega)
    subst he
    exact operators_nil_follows hc strength 0 b' left
  | succ b ih =>
    cases ts with
    | nil => exact operators_nil_follows hc strength (b + 1) b' left
    | cons t us =>
      simp only [List.length_cons] at hn hb hb'
      obtain ⟨b', rfl⟩ : ∃ k, b' = k + 1 := ⟨b' - 1, by omega⟩
      rw [E.tokens_cons]
      simp only [operators, E.kind_token]
      cases ho : t.kind.binaryOp? with
      | none => exact ⟨.refl _, rfl⟩
      | some op =>
        have ht := Kind.ne_semicolon_of_binaryOp? ho
        by_cases hs : strength ≤ op.strength
        · simp only [if_pos hs]
          refine .mono ?_ (.cons ht (.refl us))
          refine (hp (op.strength + 1) us (by omega) (hc.tail ht)).andThen ?_
          intro right rest hw
          -- `parse` may leave every token it was given, but the operator itself is gone
          have hlen := hw.length_le
          have hi := ih (by omega) (by omega) (show rest.length ≤ b' by omega)
            ((hc.tail ht).within hw) (.binary op t.place.line left right)
          rw [Expr.down, ← E.line_token] at hi
          exact hi.mono hw
        · simp only [if_neg hs]
          exact ⟨.refl _, rfl⟩

theorem operand_stop {t : Token} {us : List Token} (hv : t.kind.literal? = none)
    (ho : t.kind.unaryOp? = none) (ht : t.kind ≠ .leftParen) :
    operand parse (t :: us) = .error ⟨.operand, t :: us⟩ := by
  simp only [operand, hv, ho, if_neg ht]

/-- What is left after the first token, if an operand begins with it. -/
def afterFirst : List Token → List Token
  | t :: rest => if t.kind.beginsOperand then rest else t :: rest
  | [] => []

def closeGroup (e : Expr) (ts : List Token) : Parsed Expr :=
  match expect .rightParen .closingParen ts with
  | .ok (_, rest) => .ok (.group e, rest)
  | .error m => .error m

theorem closeGroup_follows {ts : List Token} (hc : E.Closes ts) (e : Expr) :
    E.Follows ts (closeGroup e ts) (closeGroup (e.down E.lines) (E.tokens ts)) := by
  rw [closeGroup, closeGroup, expect_tokens hc]
  rcases expect_cases .rightParen .closingParen ts with ⟨t, after, rfl, ht, hx⟩ | hx
  · rw [hx]
    exact ⟨.cons (by rw [ht]; decide) (.refl after), rfl⟩
  · rw [hx]
    exact ⟨.refl ts, rfl⟩

theorem operand_group {t : Token} {us : List Token} (hv : t.kind.literal? = none)
    (ho : t.kind.unaryOp? = none) (ht : t.kind = .leftParen) :
    operand parse (t :: us) = (parse 0 us).andThen closeGroup := by
  simp only [operand, hv, ho, if_pos ht]
  rfl

theorem operand_follows
    (hp : ∀ strength ts, ts.length ≤ n → E.Closes ts →
      E.Follows ts (parse strength ts) (parse' strength (E.tokens ts)))
    {ts : List Token} (hn : ts.length ≤ n) (hc : E.Closes ts) :
    E.Follows (afterFirst ts) (operand parse ts) (operand parse' (E.tokens ts)) := by
  cases ts with
  | nil =>
    rw [E.tokens_nil, hc.nil]
    exact ⟨.refl _, by simp only [operand, Embedding.result, Embedding.mistake_nil hc.nil]⟩
  | cons t us =>
    simp only [List.length_cons] at hn
    rw [E.tokens_cons]
    rw [afterFirst]
    rcases Option.eq_none_or_eq_some t.kind.literal? with hv | ⟨v, hv⟩
    · rcases Option.eq_none_or_eq_some t.kind.unaryOp? with ho | ⟨op, ho⟩
      · by_cases ht : t.kind = .leftParen
        · have hcu : E.Closes us := hc.tail (by rw [ht]; decide)
          rw [operand_group hv ho ht, operand_group (t := E.token t) hv ho ht,
            if_pos (by simp [Kind.beginsOperand, ht])]
          exact (hp 0 us (by omega) hcu).andThen fun e rest hw =>
            (closeGroup_follows (hcu.within hw) e).mono hw
        · rw [operand_stop hv ho ht, operand_stop (t := E.token t) hv ho ht,
            if_neg (by simp [Kind.beginsOperand, hv, ho, ht])]
          exact ⟨.refl _, rfl⟩
      · simp only [operand, E.kind_token, hv, ho]
        rw [if_pos (by simp [Kind.beginsOperand, ho])]
        have hne := Kind.ne_semicolon_of_unaryOp? ho
        refine (hp unaryStrength us (by omega) (hc.tail hne)).andThen fun e rest hw => ⟨hw, ?_⟩
        simp only [Embedding.result, Expr.down, E.line_token]
    · simp only [operand, E.kind_token, hv]
      rw [if_pos (by simp [Kind.beginsOperand, hv])]
      refine ⟨.refl us, ?_⟩
      simp only [Embedding.result, Expr.down, E.line_token]

theorem Kind.ne_semicolon_of_beginsOperand {k : Kind} (h : k.beginsOperand = true) :
    k ≠ .semicolon := by
  rintro rfl
  exact absurd h (by decide)

theorem within_afterFirst (ts : List Token) : Within ts (afterFirst ts) := by
  cases ts with
  | nil => exact .refl _
  | cons t us =>
    rw [afterFirst]
    split
    · next ht => exact .cons (Kind.ne_semicolon_of_beginsOperand ht) (.refl us)
    · exact .refl _

theorem expression_succ_follows {bound bound' room : Nat}
    (hp : ∀ strength ts, ts.length ≤ n → E.Closes ts →
      E.Follows ts (expression bound room strength ts)
        (expression bound' room strength (E.tokens ts)))
    (strength : Nat) {ts : List Token} (hn : ts.length ≤ n) (hb : ts.length ≤ bound)
    (hb' : ts.length ≤ bound') (hc : E.Closes ts) :
    E.Follows (afterFirst ts) (expression bound (room + 1) strength ts)
      (expression bound' (room + 1) strength (E.tokens ts)) := by
  rw [expression, expression]
  refine (operand_follows hp hn hc).andThen ?_
  intro left rest hw
  have hts : Within ts rest := (within_afterFirst ts).trans hw
  have hlen := hts.length_le
  exact (operators_follows hp strength (by omega) (by omega) (by omega)
    (hc.within hts) left).mono hw

theorem expression_follows {bound bound' : Nat} (room strength : Nat) {ts : List Token}
    (hb : ts.length ≤ bound) (hb' : ts.length ≤ bound') (hc : E.Closes ts) :
    E.Follows ts (expression bound room strength ts)
      (expression bound' room strength (E.tokens ts)) := by
  induction room generalizing strength ts with
  | zero => exact ⟨.refl ts, rfl⟩
  | succ room ih =>
    have hp (strength : Nat) (us : List Token) (hn : us.length ≤ min bound bound')
        (hc : E.Closes us) := ih strength (show us.length ≤ bound by omega) (by omega) hc
    exact (expression_succ_follows hp strength (by omega) hb hb' hc).mono (within_afterFirst ts)

end Parsing

/-! Statements: a semicolon ends each, and after a mistake it is searched for. -/

theorem EndsStatement.rest {t : Token} {ts : List Token} (h : EndsStatement (t :: ts)) :
    ts = [] ∨ EndsStatement ts := by
  obtain ⟨init, u, he, hu⟩ := h
  cases init with
  | nil =>
    cases he
    exact .inl rfl
  | cons v init =>
    cases he
    exact .inr ⟨init, u, rfl, hu⟩

/-- Tokens that another statement may begin with, or none at all. -/
def Embedding.Resumes (E : Embedding) (ts : List Token) : Prop := ts = [] ∨ E.Closes ts

theorem Embedding.Closes.rest {E : Embedding} {t : Token} {ts : List Token}
    (h : E.Closes (t :: ts)) : E.Resumes ts := by
  rcases h with h | h
  · exact .inr (.inl h)
  · exact h.rest.imp_right .inr

theorem resume_tokens {E : Embedding} {ts : List Token} (hc : E.Closes ts) :
    resume (E.tokens ts) = E.tokens (resume ts) ∧ (resume ts).length ≤ ts.length ∧
      E.Resumes (resume ts) := by
  induction ts with
  | nil =>
    rw [E.tokens_nil, hc.nil]
    exact ⟨hc.nil.symm, Nat.le_refl _, .inl rfl⟩
  | cons t us ih =>
    rw [E.tokens_cons]
    by_cases hb : t.kind.beginsStatement = true
    · rw [resume, resume, if_pos hb, if_pos (show (E.token t).kind.beginsStatement = true from hb)]
      exact ⟨rfl, Nat.le_refl _, .inr hc⟩
    · rw [resume, resume, if_neg hb, if_neg (show ¬(E.token t).kind.beginsStatement = true from hb)]
      by_cases hs : t.kind = .semicolon
      · rw [if_pos hs, if_pos (show (E.token t).kind = .semicolon from hs)]
        exact ⟨rfl, Nat.le_succ _, hc.rest⟩
      · rw [if_neg hs, if_neg (show (E.token t).kind ≠ .semicolon from hs)]
        obtain ⟨he, hl, hr⟩ := ih (hc.tail hs)
        exact ⟨he, Nat.le_succ_of_le hl, hr⟩

/-- What a statement leaves: nothing but what comes after its semicolon, or the place of the
first mistake, which is after `rest` begins. -/
def Leaves (ts rest : List Token) : Parsed Stmt → Prop
  | .ok (_, after) => ∃ t, Within ts (t :: after)
  | .error m => Within rest m.rest

theorem statementBody_follows {E : Embedding} {bound bound' : Nat} (printed : Bool)
    {ts : List Token} (hb : ts.length ≤ bound) (hb' : ts.length ≤ bound') (hc : E.Closes ts) :
    Leaves ts (afterFirst ts) (statementBody bound printed ts) ∧
      statementBody bound' printed (E.tokens ts) =
        E.result (Stmt.down E.lines) (statementBody bound printed ts) := by
  have hp (strength : Nat) (us : List Token) (hn : us.length ≤ min bound bound')
      (hc : E.Closes us) := expression_follows 511 strength
        (show us.length ≤ bound by omega) (show us.length ≤ bound' by omega) hc
  have h : E.Follows (afterFirst ts) (expression bound nestingLimit 0 ts)
      (expression bound' nestingLimit 0 (E.tokens ts)) :=
    expression_succ_follows hp 0 (by omega) hb hb' hc
  unfold statementBody
  rw [h.eq]
  cases hr : expression bound nestingLimit 0 ts with
  | error m =>
    rw [hr] at h
    exact ⟨h.within, rfl⟩
  | ok result =>
    obtain ⟨e, rest⟩ := result
    rw [hr] at h
    have hw : Within (afterFirst ts) rest := h.within
    have hts := (within_afterFirst ts).trans hw
    simp only [Embedding.result, expect_tokens (hc.within hts)]
    rcases expect_cases .semicolon
      (if printed then .semicolonAfterValue else .semicolonAfterExpression) rest with
      ⟨t, after, rfl, -, hx⟩ | hx
    · rw [hx]
      refine ⟨⟨t, hts⟩, ?_⟩
      simp only [Stmt.down, E.line_token]
    · rw [hx]
      exact ⟨hw, rfl⟩

/-- Whether a mistake in a statement that begins with this token is looked for after it. -/
def Token.passed (t : Token) : Bool := t.kind = .keyword .printWord || t.kind.beginsOperand

theorem statement_follows {E : Embedding} {bound bound' : Nat} {t : Token} {us : List Token}
    (hb : (t :: us).length ≤ bound) (hb' : (t :: us).length ≤ bound') (hc : E.Closes (t :: us)) :
    Leaves (t :: us) (if t.passed then us else t :: us) (statement bound (t :: us)) ∧
      statement bound' (E.tokens (t :: us)) =
        E.result (Stmt.down E.lines) (statement bound (t :: us)) := by
  rw [E.tokens_cons]
  by_cases ht : t.kind = .keyword .printWord
  · have hne : t.kind ≠ .semicolon := by rw [ht]; decide
    obtain ⟨hl, he⟩ := statementBody_follows true (Nat.le_of_succ_le hb) (Nat.le_of_succ_le hb')
      (hc.tail hne)
    rw [statement, statement, if_pos ht, if_pos (show (E.token t).kind = _ from ht)]
    refine ⟨?_, he⟩
    rw [if_pos (by simp [Token.passed, ht])]
    cases hr : statementBody bound true us with
    | error m =>
      rw [hr] at hl
      exact (within_afterFirst us).trans hl
    | ok result =>
      rw [hr] at hl
      obtain ⟨semicolon, hl⟩ := hl
      exact ⟨semicolon, .cons hne hl⟩
  · rw [statement, statement, if_neg ht, if_neg (show (E.token t).kind ≠ _ from ht)]
    have hf : afterFirst (t :: us) = if t.passed then us else t :: us := by
      simp [afterFirst, Token.passed, ht]
    rw [← hf]
    exact statementBody_follows false hb hb' hc

theorem within_passed (t : Token) (us : List Token) :
    Within (t :: us) (if t.passed then us else t :: us) := by
  split
  · next hp =>
    refine .cons ?_ (.refl us)
    intro ht
    simp [Token.passed, ht, Kind.beginsOperand, Kind.literal?, Kind.unaryOp?] at hp
  · exact .refl _

theorem recover_cons (t : Token) (us : List Token) (m : Mistake) :
    recover (t :: us) m =
      if t.passed then resume m.rest else if t.kind = .semicolon then us else resume us := rfl

theorem recover_tokens {E : Embedding} {t : Token} {us : List Token} {m : Mistake}
    (hc : E.Closes (t :: us)) (hm : Within (if t.passed then us else t :: us) m.rest) :
    recover (E.tokens (t :: us)) (E.mistake m) = E.tokens (recover (t :: us) m) ∧
      (recover (t :: us) m).length ≤ us.length ∧ E.Resumes (recover (t :: us) m) := by
  rw [E.tokens_cons, recover_cons, recover_cons]
  by_cases hp : t.passed = true
  · obtain ⟨he, hl, hres⟩ := resume_tokens (hc.within ((within_passed t us).trans hm))
    rw [if_pos hp] at hm
    rw [if_pos hp, if_pos (show (E.token t).passed = true from hp)]
    exact ⟨he, Nat.le_trans hl hm.length_le, hres⟩
  · rw [if_neg hp, if_neg (show ¬(E.token t).passed = true from hp)]
    by_cases hs : t.kind = .semicolon
    · rw [if_pos hs, if_pos (show (E.token t).kind = .semicolon from hs)]
      exact ⟨rfl, Nat.le_refl _, hc.rest⟩
    · rw [if_neg hs, if_neg (show (E.token t).kind ≠ .semicolon from hs)]
      exact resume_tokens (hc.tail hs)

theorem statements_nil (bound count : Nat) : statements bound count [] = ([], []) := by
  cases count <;> rfl

/-- Embedded tokens have the mistakes and statements they have alone, and then those of the
tokens that follow. -/
theorem statements_tokens {E : Embedding} {bound bound' count count' : Nat} {ts : List Token}
    (htail : ∀ b c, E.tail.length ≤ b → E.tail.length ≤ c → statements b c E.tail = parse E.tail)
    (hc : E.Resumes ts) (hb : ts.length ≤ bound) (hn : ts.length ≤ count)
    (hb' : ts.length + E.tail.length ≤ bound') (hn' : ts.length + E.tail.length ≤ count') :
    statements bound' count' (E.tokens ts) =
      ((statements bound count ts).1.map E.mistake ++ (parse E.tail).1,
        (statements bound count ts).2.map (Stmt.down E.lines) ++ (parse E.tail).2) ∧
    ∀ m ∈ (statements bound count ts).1, E.Closes m.rest := by
  induction count generalizing ts count' with
  | zero =>
    have he : ts = [] := List.eq_nil_of_length_eq_zero (by omega)
    subst he
    rw [statements_nil]
    exact ⟨htail _ _ (by simpa using hb') (by simpa using hn'), List.forall_mem_nil _⟩
  | succ count ih =>
    cases ts with
    | nil =>
      rw [statements_nil]
      exact ⟨htail _ _ (by simpa using hb') (by simpa using hn'), List.forall_mem_nil _⟩
    | cons t us =>
      simp only [List.length_cons] at hn hb' hn'
      obtain ⟨count', rfl⟩ : ∃ k, count' = k + 1 := ⟨count' - 1, by omega⟩
      have hc : E.Closes (t :: us) := hc.resolve_left (List.cons_ne_nil _ _)
      obtain ⟨hl, he⟩ := statement_follows hb (show us.length + 1 ≤ bound' by omega) hc
      simp only [List.length_cons] at hb
      rw [statements, E.tokens_cons, statements, ← E.tokens_cons, he]
      · cases hs : statement bound (t :: us) with
        | error m =>
          rw [hs] at hl
          obtain ⟨hrec, hlen, hres⟩ := recover_tokens hc hl
          obtain ⟨hi, hm⟩ := ih hres (by omega) (by omega) (by omega)
            (show _ + E.tail.length ≤ count' by omega)
          simp only [Embedding.result, hrec, hi]
          have hw := (within_passed t us).trans hl
          exact ⟨rfl, List.forall_mem_cons.mpr ⟨hc.within hw, hm⟩⟩
        | ok result =>
          obtain ⟨s, after⟩ := result
          rw [hs] at hl
          obtain ⟨semicolon, hw⟩ := hl
          have hlen := hw.length_le
          simp only [List.length_cons] at hlen
          obtain ⟨hi, hm⟩ := ih (hc.within hw).rest (by omega) (by omega) (by omega)
            (show _ + E.tail.length ≤ count' by omega)
          simp only [Embedding.result, hi]
          exact ⟨rfl, hm⟩
      all_goals exact List.cons_ne_nil _ _

theorem Expr.down_zero (e : Expr) : e.down 0 = e := by
  induction e with
  | literal => rfl
  | group inner ih => rw [down, ih]
  | unary op line operand ih => rw [down, ih, Nat.add_zero]
  | binary op line left right ihl ihr => rw [down, ihl, ihr, Nat.add_zero]

theorem Stmt.down_zero (s : Stmt) : s.down 0 = s := by
  rw [down, Expr.down_zero, Nat.add_zero]

/-- Tokens at the front of a text, where nothing moves. -/
def Embedding.before (us : List Token) : Embedding := ⟨id, 0, fun _ => rfl, us⟩

theorem Embedding.tokens_before (ts us : List Token) : (before us).tokens ts = ts ++ us :=
  congrArg (· ++ us) (List.map_id ts)

theorem Embedding.mistake_before_nil (m : Mistake) : (before []).mistake m = m := by
  rw [mistake, tokens_before, List.append_nil]

theorem statements_enough {ts : List Token} {bound count : Nat} (hb : ts.length ≤ bound)
    (hc : ts.length ≤ count) : statements bound count ts = parse ts := by
  have htail (b c : Nat) (_ : ([] : List Token).length ≤ b) (_ : ([] : List Token).length ≤ c) :
      statements b c [] = parse [] := statements_nil b c
  have h := (statements_tokens (E := .before []) htail (.inr (.inl rfl))
    (Nat.le_refl _) (Nat.le_refl _) hb hc).1
  rw [Embedding.tokens_before, List.append_nil] at h
  have hm : (Embedding.before []).mistake = id := funext Embedding.mistake_before_nil
  have hs : Stmt.down (Embedding.before []).lines = id := funext Stmt.down_zero
  rw [h, hm, hs, List.map_id, List.map_id]
  show (_ ++ [], _ ++ []) = _
  rw [List.append_nil, List.append_nil]
  rfl

/-- Parsing embedded tokens finds their own mistakes and statements, moved, and then those of
the tokens that follow. -/
theorem parse_tokens {E : Embedding} {ts : List Token} (hc : E.Resumes ts) :
    parse (E.tokens ts) = ((parse ts).1.map E.mistake ++ (parse E.tail).1,
        (parse ts).2.map (Stmt.down E.lines) ++ (parse E.tail).2) ∧
      ∀ m ∈ (parse ts).1, E.Closes m.rest := by
  have hlen : (E.tokens ts).length = ts.length + E.tail.length := by
    rw [Embedding.tokens, List.length_append, List.length_map]
  have h := statements_tokens (fun b c hb hc => statements_enough hb hc) hc (Nat.le_refl _)
    (Nat.le_refl _) (Nat.le_of_eq hlen.symm) (Nat.le_of_eq hlen.symm)
  exact h

end ExprMachine
