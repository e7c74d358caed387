import ExprMachine.Proofs.Compile.Acceptance
import ExprMachine.Proofs.Token.Layout

/-! Gaps decide on places alone: texts of the same tokens have the same code and constants, or
the same messages. Two runs of the reader are compared action by action. -/

namespace ExprMachine

namespace Chunk

/-- Chunks that differ in their lines only. -/
structure Like (c d : Chunk) : Prop where
  code : d.code = c.code
  constants : d.constants = c.constants

variable {c d : Chunk}

theorem Like.write (h : c.Like d) (b : UInt8) (line line' : Nat) :
    (c.write b line).Like (d.write b line') :=
  ⟨congrArg (·.push b) h.code, h.constants⟩

theorem Like.writeAll (h : c.Like d) (bytes : List UInt8) (line line' : Nat) :
    (c.writeAll bytes line).Like (d.writeAll bytes line') := by
  induction bytes generalizing c d with
  | nil => exact h
  | cons b bytes ih => exact ih (h.write b line line')

theorem Like.intern (h : c.Like d) (k : Constant) :
    (c.intern k).1.Like (d.intern k).1 ∧ (d.intern k).2 = (c.intern k).2 := by
  have hf : d.find? k = c.find? k := by rw [find?, find?, h.constants]
  simp only [Chunk.intern, hf]
  cases c.find? k with
  | some index => exact ⟨h, rfl⟩
  | none => exact ⟨⟨h.code, congrArg (·.push k) h.constants⟩, congrArg Array.size h.constants⟩

theorem Like.writeConstant (h : c.Like d) (k : Constant) (line line' : Nat) :
    (c.writeConstant k line).1.Like (d.writeConstant k line').1 ∧
      (d.writeConstant k line').2 = (c.writeConstant k line).2 := by
  obtain ⟨hi, hindex⟩ := h.intern k
  simp only [Chunk.writeConstant, hindex]
  by_cases hfit : (c.intern k).2 ≤ lastIndex
  · simp only [if_pos hfit]
    exact ⟨hi.writeAll _ line line', trivial⟩
  · simp only [if_neg hfit]
    exact ⟨hi, trivial⟩

end Chunk

/-- Items that differ in their places only. -/
inductive Item.Like : Item → Item → Prop
  | token {t u : Token} (hk : u.kind = t.kind) (ht : u.text = t.text) : Like (.token t) (.token u)
  | finish (p q : Place) : Like (.finish p) (.finish q)

namespace Item.Like

variable {x y : Item}

theorem rule (h : x.Like y) : y.rule = x.rule := by
  cases h with
  | token hk => rw [Item.rule, hk, Item.rule]
  | finish => rfl

theorem label (h : x.Like y) : y.label = x.label := by
  cases h with
  | token hk => rw [Item.label, hk, Item.label]
  | finish => rfl

theorem isNone (h : x.Like y) : y.token?.isNone = x.token?.isNone := by
  cases h <;> rfl

/-- What is decided by the kind of a token. -/
theorem bind {α : Type} (h : x.Like y) (f : Kind → Option α) :
    y.token?.bind (f ·.kind) = x.token?.bind (f ·.kind) := by
  cases h with
  | token hk => simp only [token?, Option.bind_some, hk]
  | finish => rfl

theorem map (h : x.Like y) : y.token?.map Token.kind = x.token?.map Token.kind := by
  cases h with
  | token hk => simp only [token?, Option.map_some, hk]
  | finish => rfl

theorem any (h : x.Like y) (p : Kind → Bool) :
    y.token?.any (p ·.kind) = x.token?.any (p ·.kind) := by
  cases h with
  | token hk => simp only [token?, Option.any_some, hk]
  | finish => rfl

theorem message (h : x.Like y) (expected : Expected) :
    CompileError.message (.parse ⟨expected, y.token?, y.place⟩) =
      CompileError.message (.parse ⟨expected, x.token?, x.place⟩) := by
  cases h with
  | token _ ht => simp only [CompileError.message, ParseError.message, token?, ht]
  | finish => rfl

end Item.Like

namespace Reader

/-- Readers that differ in lines and in the places of errors only. -/
structure Like (r q : Reader) : Prop where
  index : q.index = r.index
  chunk : r.chunk.Like q.chunk
  messages : q.errors.map CompileError.message = r.errors.map CompileError.message
  depth : q.depth = r.depth

/-- Obstacles of one kind, with the same message. -/
inductive Obstructs : Obstacle → Obstacle → Prop
  | diagnostic {d e : CompileError} (h : e.message = d.message) :
    Obstructs (.diagnostic d) (.diagnostic e)
  | outside : Obstructs .outside .outside
  | endless : Obstructs .endless .endless

inductive Ends {α β : Type} (R : α → β → Prop) :
    EStateM.Result Obstacle Reader α → EStateM.Result Obstacle Reader β → Prop
  | ok {x : α} {y : β} {r q : Reader} (hx : R x y) (h : r.Like q) : Ends R (.ok x r) (.ok y q)
  | error {e e' : Obstacle} {r q : Reader} (he : Obstructs e e') (h : r.Like q) :
    Ends R (.error e r) (.error e' q)

/-- Actions that end alike from readers that are alike. -/
def Alike {α β : Type} (R : α → β → Prop) (a : Run α) (b : Run β) : Prop :=
  ∀ ⦃r q : Reader⦄, r.Like q → Ends R (a.run r) (b.run q)

section Comparing

variable {α β γ δ : Type} {R : α → β → Prop} {S : γ → δ → Prop} {r q : Reader}

theorem Like.moved (h : r.Like q) : r.moved.Like q.moved :=
  ⟨congrArg (· + 1) h.index, h.chunk, h.messages, h.depth⟩

theorem Like.entered (h : r.Like q) : r.entered.Like q.entered :=
  ⟨h.index, h.chunk, h.messages, congrArg (· + 1) h.depth⟩

theorem Like.left (h : r.Like q) : r.left.Like q.left :=
  ⟨h.index, h.chunk, h.messages, congrArg (· - 1) h.depth⟩

theorem Like.noted (h : r.Like q) {d e : CompileError} (hd : e.message = d.message) :
    (r.noted d).Like (q.noted e) :=
  ⟨h.index, h.chunk, by simp only [Reader.noted, Array.map_push, h.messages, hd], h.depth⟩

theorem alike_pure {x : α} {y : β} (h : R x y) : Alike R (pure x) (pure y) :=
  fun _ _ hr => .ok h hr

theorem Ends.bind {a : Run α} {b : Run β} {f : α → Run γ} {g : β → Run δ}
    (ha : Ends R (a.run r) (b.run q))
    (hf : ∀ x y r' q', a.run r = .ok x r' → b.run q = .ok y q' → R x y → r'.Like q' →
      Ends S ((f x).run r') ((g y).run q')) :
    Ends S ((a >>= f).run r) ((b >>= g).run q) := by
  rw [EStateM.run_bind, EStateM.run_bind]
  generalize a.run r = result at ha hf
  generalize b.run q = result' at ha hf
  cases ha with
  | ok hx h => exact hf _ _ _ _ rfl rfl hx h
  | error he h => exact .error he h

theorem Alike.bind {a : Run α} {b : Run β} {f : α → Run γ} {g : β → Run δ}
    (ha : Alike R a b) (hf : ∀ x y, R x y → Alike S (f x) (g y)) :
    Alike S (a >>= f) (b >>= g) :=
  fun _ _ hr => (ha hr).bind fun x y _ _ _ _ hxy hr' => hf x y hxy hr'

theorem Alike.ite {p : Prop} [Decidable p] {a a' : Run α} {b b' : Run β} (ha : Alike R a b)
    (hb : Alike R a' b') : Alike R (if p then a else a') (if p then b else b') := by
  split
  · exact ha
  · exact hb

theorem alike_throw {e e' : Obstacle} (h : Obstructs e e') :
    Alike R (throw e) (throw e') :=
  fun _ _ hr => .error h hr

theorem alike_report {d e : CompileError} (h : e.message = d.message) :
    Alike Eq (report d) (report e) :=
  alike_throw (.diagnostic h)

theorem alike_get : Alike Like get get := fun _ _ hr => .ok hr hr

theorem alike_emit (code : Opcode) (line line' : Nat) :
    Alike Eq (emit code line) (emit code line') :=
  fun _ _ hr => .ok rfl ⟨hr.index, hr.chunk.write code.toByte line line', hr.messages, hr.depth⟩

theorem alike_emitAll (codes : List Opcode) (line line' : Nat) :
    Alike Eq (codes.forM fun code => emit code line) (codes.forM fun code => emit code line') := by
  induction codes with
  | nil => exact alike_pure rfl
  | cons code codes ih => exact (alike_emit code line line').bind fun _ _ _ => ih

theorem alike_emitConstant (k : Constant) (line line' : Nat) :
    Alike Eq (emitConstant k line) (emitConstant k line') := by
  intro r q hr
  obtain ⟨hc, hindex⟩ := hr.chunk.writeConstant k line line'
  simp only [EStateM.run, emitConstant]
  revert hc hindex
  rcases r.chunk.writeConstant k line with ⟨c, _ | index⟩ <;>
    rcases q.chunk.writeConstant k line' with ⟨d, _ | index'⟩ <;> intro hc hindex
  · exact .error (.diagnostic rfl) ⟨hr.index, hc, hr.messages, hr.depth⟩
  · cases hindex
  · cases hindex
  · exact .ok rfl ⟨hr.index, hc, hr.messages, hr.depth⟩

theorem alike_deeper {a b : Run Unit} (h : Alike Eq a b) :
    Alike Eq (deeper a) (deeper b) := by
  intro r q hr
  have hends := h hr.entered
  generalize ha : a.run r.entered = result at hends
  generalize hb : b.run q.entered = result' at hends
  cases hends with
  | ok hx hr' =>
    rw [deeper_of_ok ha, deeper_of_ok hb]
    exact .ok hx hr'.left
  | error he hr' =>
    rw [deeper_of_error ha, deeper_of_error hb]
    exact .error he hr'.left

end Comparing

theorem peek_eq_ok {xs : Array Item} {x : Item} {r r' : Reader}
    (h : (peek xs).run r = .ok x r') : r' = r ∧ xs[r.index]? = some x := by
  simp only [EStateM.run, peek] at h
  split at h <;> cases h
  exact ⟨rfl, ‹_›⟩

theorem previous_eq_ok {xs : Array Item} {x : Item} {r r' : Reader}
    (h : (previous xs).run r = .ok x r') :
    r' = r ∧ ∃ i, r.index = i + 1 ∧ xs[i]? = some x := by
  simp only [EStateM.run, previous] at h
  split at h
  · cases h
  · split at h <;> cases h
    exact ⟨rfl, _, ‹_›, ‹_›⟩

theorem advance_of_token {xs : Array Item} {t : Token} {r : Reader}
    (h : xs[r.index]? = some (.token t)) : (advance xs).run r = .ok (.token t) r.moved := by
  have hpeek : (peek xs).run r = .ok (.token t) r := by simp only [EStateM.run, peek, h]
  have hend : (atEnd xs).run r = .ok false r := by
    rw [atEnd, bind_ok hpeek]
    rfl
  have hprevious : (previous xs).run r.moved = .ok (.token t) r.moved := by
    simp only [EStateM.run, previous, moved_index, h]
  rw [advance, bind_ok hend]
  exact hprevious

theorem Ends.outcome {result result' : EStateM.Result Obstacle Reader Unit}
    (h : Ends Eq result result') :
    (∃ c c', Reader.outcome result = .ok c ∧ Reader.outcome result' = .ok c' ∧
        c'.code = c.code ∧ c'.constants = c.constants) ∨
      ∃ es es', Reader.outcome result = .error es ∧ Reader.outcome result' = .error es' ∧
        es'.length = es.length ∧
        es'.map CompileError.message = es.map CompileError.message := by
  have hmessages {r q : Reader} (hr : r.Like q) : q.errors.toList.length = r.errors.toList.length ∧
      q.errors.toList.map CompileError.message = r.errors.toList.map CompileError.message := by
    have hm : q.errors.toList.map CompileError.message =
        r.errors.toList.map CompileError.message := by
      rw [← Array.toList_map, ← Array.toList_map, hr.messages]
    exact ⟨by simpa using congrArg List.length hm, hm⟩
  cases h with
  | ok _ hr =>
    obtain ⟨hlen, hm⟩ := hmessages hr
    simp only [Reader.outcome, Array.isEmpty_iff_size_eq_zero, ← Array.length_toList, hlen]
    split
    · exact .inl ⟨_, _, rfl, rfl, hr.chunk.code, hr.chunk.constants⟩
    · exact .inr ⟨_, _, rfl, rfl, hlen, hm⟩
  | error _ hr => exact .inr ⟨_, _, rfl, rfl, hmessages hr⟩

section Reading

/-! The actions over items that differ in their places only. -/

variable {xs ys : Array Item} (hi : ∀ i : Nat, Option.Rel Item.Like xs[i]? ys[i]?)

include hi

theorem alike_peek : Alike Item.Like (peek xs) (peek ys) := by
  intro r q hr
  simp only [EStateM.run, peek, hr.index]
  have hitem := hi r.index
  revert hitem
  cases xs[r.index]? <;> cases ys[r.index]? <;> rintro ⟨⟩
  · exact .error .outside hr
  · next h => exact .ok h hr

theorem alike_previous : Alike Item.Like (previous xs) (previous ys) := by
  intro r q hr
  simp only [EStateM.run, previous, hr.index]
  cases r.index with
  | zero => exact .error .outside hr
  | succ i =>
    have hitem := hi i
    revert hitem
    simp only
    cases xs[i]? <;> cases ys[i]? <;> rintro ⟨⟩
    · exact .error .outside hr
    · next h => exact .ok h hr

theorem alike_atEnd : Alike Eq (atEnd xs) (atEnd ys) :=
  (alike_peek hi).bind fun _ _ h => alike_pure h.isNone.symm

theorem alike_advance : Alike Item.Like (advance xs) (advance ys) := by
  refine (alike_atEnd hi).bind fun ended _ he => ?_
  subst he
  refine .ite (alike_previous hi) (Alike.bind (R := Eq) ?_ fun _ _ _ => alike_previous hi)
  exact fun _ _ hr => .ok rfl hr.moved

theorem alike_check (kind : Kind) : Alike Eq (check xs kind) (check ys kind) := by
  refine (alike_atEnd hi).bind fun ended _ he => ?_
  subst he
  refine .ite (alike_pure rfl) ((alike_peek hi).bind fun _ _ h => alike_pure ?_)
  exact (h.any fun k => decide (k = kind)).symm

theorem alike_passes (kind : Kind) : Alike Eq (passes xs kind) (passes ys kind) := by
  refine (alike_check hi kind).bind fun found _ he => ?_
  subst he
  exact .ite ((alike_advance hi).bind fun _ _ _ => alike_pure rfl) (alike_pure rfl)

theorem alike_unexpected (expected : Expected) :
    Alike Eq (unexpected xs expected) (unexpected ys expected) :=
  (alike_peek hi).bind fun _ _ h => alike_report (h.message expected)

theorem alike_consume (kind : Kind) (expected : Expected) :
    Alike Eq (consume xs kind expected) (consume ys kind expected) := by
  refine (alike_check hi kind).bind fun found _ he => ?_
  subst he
  exact .ite ((alike_advance hi).bind fun _ _ _ => alike_pure rfl) (alike_unexpected hi expected)

theorem alike_literal : Alike Eq (literal xs) (literal ys) := by
  refine (alike_previous hi).bind fun x y h => ?_
  simp only [h.map, h.label]
  split
  · exact alike_emit _ _ _
  · exact alike_emit _ _ _
  · exact alike_emit _ _ _
  · exact alike_report rfl

section Nested

variable {nested nested' : Precedence → Run Unit}
  (hn : ∀ precedence, Alike Eq (nested precedence) (nested' precedence))

include hn

theorem alike_grouping : Alike Eq (grouping xs nested) (grouping ys nested') :=
  (hn .assignment).bind fun _ _ _ => alike_consume hi .rightParen .closingParen

theorem alike_unary : Alike Eq (unary xs nested) (unary ys nested') := by
  refine (alike_previous hi).bind fun x y h => (hn .unary).bind fun _ _ _ => ?_
  simp only [h.bind Kind.unaryOp?, h.label]
  split
  · exact alike_emit _ _ _
  · exact alike_report rfl

theorem alike_binary : Alike Eq (binary xs nested) (binary ys nested') := by
  refine (alike_previous hi).bind fun x y h => ?_
  simp only [h.bind Kind.binaryOp?, h.label, h.rule]
  refine (hn x.rule.precedence.next).bind fun _ _ _ => ?_
  split
  · exact alike_emitAll _ _ _
  · exact alike_report rfl

/-- A number or a text is read only where it stands, so that no place gets into a message. -/
theorem ends_apply {r q : Reader} (hr : r.Like q) {form : Form} {i : Nat} {t : Token}
    (hindex : r.index = i + 1) (ht : xs[i]? = some (.token t)) (hform : form.Takes t.kind) :
    Ends Eq ((apply xs nested form).run r) ((apply ys nested' form).run q) := by
  obtain ⟨y, hyi, hitem⟩ : ∃ y, ys[i]? = some y ∧ Item.Like (.token t) y := by
    have hy := hi i
    rw [ht] at hy
    revert hy
    cases ys[i]? <;> rintro ⟨⟩
    next h => exact ⟨_, rfl, h⟩
  cases hitem with
  | @token _ u hk =>
    have hx : (previous xs).run r = .ok (.token t) r := by
      simp only [EStateM.run, previous, hindex, ht]
    have hy : (previous ys).run q = .ok (.token u) q := by
      simp only [EStateM.run, previous, hr.index, hindex, hyi]
    cases form with
    | grouping => exact alike_grouping hi hn hr
    | unary => exact alike_unary hi hn hr
    | binary => exact alike_binary hi hn hr
    | literal => exact alike_literal hi hr
    | number =>
      obtain ⟨x, hx'⟩ := hform
      rw [apply, apply, number, number, bind_ok hx, bind_ok hy]
      simp only [Item.token?, Option.map_some, hk, hx']
      exact alike_emitConstant _ _ _ hr
    | text =>
      obtain ⟨x, hx'⟩ := hform
      rw [apply, apply, text, text, bind_ok hx, bind_ok hy]
      simp only [Item.token?, Option.map_some, hk, hx']
      exact alike_emitConstant _ _ _ hr

theorem alike_infixes (precedence : Precedence) (bound : Nat) :
    Alike Eq (infixes xs nested precedence bound) (infixes ys nested' precedence bound) := by
  induction bound with
  | zero => exact alike_throw .endless
  | succ bound ih =>
    refine (alike_peek hi).bind fun x y h => ?_
    rw [h.rule]
    refine .ite ((alike_advance hi).bind fun _ _ _ => ?_) (alike_pure rfl)
    intro r q hr
    refine (alike_previous hi hr).bind fun x y r' q' hx _ h hr' => ?_
    obtain ⟨rfl, i, hindex, hitem⟩ := previous_eq_ok hx
    simp only [h.rule, h.label]
    cases hform : x.rule.after with
    | none => exact alike_report rfl hr'
    | some form =>
      cases h with
      | finish => cases hform
      | token =>
        have htakes := Kind.takes_of_rule (.inr hform)
        exact (ends_apply hi hn hr' hindex hitem htakes).bind fun _ _ _ _ _ _ _ hr'' => ih hr''

theorem alike_operandAndInfixes (bound : Nat) (precedence : Precedence) :
    Alike Eq (operandAndInfixes xs nested bound precedence)
      (operandAndInfixes ys nested' bound precedence) := by
  intro r q hr
  refine (alike_peek hi hr).bind fun x y r' q' hx hy h hr' => ?_
  obtain ⟨rfl, hx⟩ := peek_eq_ok hx
  obtain ⟨rfl, hy⟩ := peek_eq_ok hy
  simp only [h.rule]
  cases hform : x.rule.first with
  | none => exact alike_unexpected hi .operand hr
  | some form =>
    cases h with
    | finish => cases hform
    | token =>
      have htakes := Kind.takes_of_rule (.inl hform)
      simp only
      rw [bind_ok (advance_of_token hx), bind_ok (advance_of_token hy)]
      exact (ends_apply hi hn hr.moved r'.moved_index hx htakes).bind
        fun _ _ _ _ _ _ _ hr'' => alike_infixes hi hn precedence bound hr''

end Nested

theorem alike_parsePrecedence (bound levels : Nat) (precedence : Precedence) :
    Alike Eq (parsePrecedence xs bound levels precedence)
      (parsePrecedence ys bound levels precedence) := by
  induction levels generalizing precedence with
  | zero => exact alike_throw .endless
  | succ levels ih =>
    refine alike_get.bind fun r q hr => ?_
    rw [hr.depth]
    exact .ite (alike_unexpected hi .shallowerNesting)
      (alike_deeper (alike_operandAndInfixes hi ih bound precedence))

theorem alike_statement (bound levels : Nat) :
    Alike Eq (statement xs bound levels) (statement ys bound levels) := by
  refine (alike_passes hi _).bind fun printed _ he => ?_
  subst he
  refine (alike_parsePrecedence hi bound levels .assignment).bind fun _ _ _ => ?_
  refine (alike_consume hi .semicolon _).bind fun _ _ _ => ?_
  exact (alike_previous hi).bind fun _ _ _ => alike_emit _ _ _

theorem alike_afterSemicolon : Alike Eq (afterSemicolon xs) (afterSemicolon ys) := by
  refine alike_get.bind fun r q hr => ?_
  rw [hr.index]
  refine .ite ((alike_previous hi).bind fun _ _ h => alike_pure ?_) (alike_pure rfl)
  exact (h.any fun k => decide (k = .semicolon)).symm

theorem alike_synchronize (bound : Nat) :
    Alike Eq (synchronize xs bound) (synchronize ys bound) := by
  induction bound with
  | zero => exact alike_throw .endless
  | succ bound ih =>
    refine (alike_atEnd hi).bind fun ended _ he => ?_
    subst he
    refine .ite (alike_pure rfl) ((alike_afterSemicolon hi).bind fun after _ he => ?_)
    subst he
    refine .ite (alike_pure rfl) ((alike_peek hi).bind fun x y h => ?_)
    rw [h.any Kind.beginsStatement]
    exact .ite (alike_pure rfl) ((alike_advance hi).bind fun _ _ _ => ih)

theorem alike_resumeFrom (start bound : Nat) :
    Alike Eq (resumeFrom xs start bound) (resumeFrom ys start bound) := by
  refine alike_get.bind fun r q hr => ?_
  rw [hr.index]
  exact .ite ((alike_advance hi).bind fun _ _ _ => alike_synchronize hi bound)
    (alike_synchronize hi bound)

theorem alike_turn (bound levels : Nat) :
    Alike Eq (turn xs bound levels) (turn ys bound levels) := by
  intro r q hr
  have hends := alike_statement hi bound levels hr
  simp only [EStateM.run] at hends
  simp only [EStateM.run, turn, hr.index]
  generalize statement xs bound levels r = result at hends
  generalize statement ys bound levels q = result' at hends
  cases hends with
  | ok hx hr' => exact .ok hx hr'
  | error he hr' =>
    cases he with
    | diagnostic hd => exact alike_resumeFrom hi r.index bound (hr'.noted hd)
    | outside => exact .error .outside hr'
    | endless => exact .error .endless hr'

theorem alike_turns (bound levels count : Nat) :
    Alike Eq (turns xs bound levels count) (turns ys bound levels count) := by
  induction count with
  | zero => exact alike_throw .endless
  | succ count ih =>
    refine (alike_atEnd hi).bind fun ended _ he => ?_
    subst he
    exact .ite (alike_pure rfl) ((alike_turn hi bound levels).bind fun _ _ _ => ih)

theorem alike_program (bound levels : Nat) :
    Alike Eq (program xs bound levels) (program ys bound levels) :=
  (alike_turns hi bound levels bound).bind fun _ _ _ =>
    (alike_peek hi).bind fun _ _ _ => alike_emit _ _ _

end Reading

end Reader

namespace Scan

variable {s s' : Scan}

theorem items_alike
    (h : s'.tokens.map (fun t => (t.kind, t.text)) = s.tokens.map (fun t => (t.kind, t.text)))
    (i : Nat) : Option.Rel Item.Like s.items[i]? s'.items[i]? := by
  have hlen : s'.tokens.length = s.tokens.length := by simpa using congrArg List.length h
  by_cases hi : i ≤ s.tokens.length
  · rw [items_getElem? hi, items_getElem? (hlen ▸ hi)]
    refine .some ?_
    have hget := congrArg (·[i]?) h
    simp only [List.getElem?_map] at hget
    revert hget
    unfold item
    cases s.tokens[i]? <;> cases s'.tokens[i]? <;> intro hget
    · exact .finish _ _
    · cases hget
    · cases hget
    · obtain ⟨hk, ht⟩ := Prod.mk.inj (Option.some.inj hget)
      exact .token hk ht
  · rw [Array.getElem?_eq_none (by rw [size_items]; omega),
      Array.getElem?_eq_none (by rw [size_items]; omega)]
    exact .none

end Scan

/-- Two texts with the same tokens and any gaps have the same tokens, code bytes and constants,
or as many errors with the same messages. -/
theorem compile_laidOut (source source' : String) (s : Scan) (hs : scan source = .ok s)
    (h : LaidOut (s.tokens.map Token.text) source'.toList) :
    (∃ s', scan source' = .ok s' ∧
      s'.tokens.map (fun t => (t.kind, t.text)) = s.tokens.map (fun t => (t.kind, t.text))) ∧
    ((∃ c c', compile source = .ok c ∧ compile source' = .ok c' ∧
        c'.code = c.code ∧ c'.constants = c.constants) ∨
      ∃ es es', compile source = .error es ∧ compile source' = .error es' ∧
        es'.length = es.length ∧
        es'.map CompileError.message = es.map CompileError.message) := by
  obtain ⟨s', hs', htexts⟩ := scan_laidOut hs h
  refine ⟨⟨s', hs', htexts⟩, ?_⟩
  have hsize : s'.items.size = s.items.size := by
    rw [s.size_items, s'.size_items]
    simpa using congrArg List.length htexts
  have hends := Reader.alike_program (Scan.items_alike htexts) s.items.size (nestingLimit + 1)
    (r := .start) (q := .start) ⟨rfl, ⟨rfl, rfl⟩, rfl, rfl⟩
  simp only [compile, hs, hs', hsize]
  generalize (Reader.program s.items s.items.size (nestingLimit + 1)).run .start = result at hends
  generalize (Reader.program s'.items s.items.size (nestingLimit + 1)).run .start = result' at hends
  exact hends.outcome

theorem compile_laidOut_comments : ∃ s c c', scan "-1;" = .ok s ∧
    LaidOut (s.tokens.map Token.text) "//c\n-\r\n1 //d\n;\t".toList ∧
    compile "-1;" = .ok c ∧ compile "//c\n-\r\n1 //d\n;\t" = .ok c' ∧
    c'.code = c.code ∧ c'.constants = c.constants := by
  have hscan : ((scan "-1;").toOption.map fun s => s.tokens.map Token.text) =
      some ["-", "1", ";"] := by decide +kernel
  have hcompile : ((compile "-1;").toOption.map fun c => c.code.size) = some 5 := by
    decide +kernel
  obtain ⟨s, hs, htexts⟩ := exists_ok_of_toOption hscan
  obtain ⟨c, hc, -⟩ := exists_ok_of_toOption hcompile
  have hend : LaidOutAfter [] ['\t'] := .last (.blank (by decide) .nil)
  have hsemicolon : LaidOutAfter [";"] " //d\n;\t".toList :=
    .next (.blank (by decide) (@Gap.comment ['d'] _ (by decide) .nil)) hend
  have hone : LaidOutAfter ["1", ";"] "\r\n1 //d\n;\t".toList :=
    .next (.blank (by decide) (.blank (by decide) .nil)) hsemicolon
  have hall : LaidOut ["-", "1", ";"] "//c\n-\r\n1 //d\n;\t".toList :=
    .first (@Gap.comment ['c'] _ (by decide) .nil) hone
  rw [← htexts] at hall
  obtain ⟨-, hsame⟩ := compile_laidOut "-1;" "//c\n-\r\n1 //d\n;\t" s hs hall
  obtain ⟨d, c', hd, hc', hcode, hconstants⟩ | ⟨es, -, he, -⟩ := hsame
  · cases hc.symm.trans hd
    exact ⟨s, c, c', hs, hall, hc, hc', hcode, hconstants⟩
  · rw [hc] at he
    cases he

end ExprMachine
