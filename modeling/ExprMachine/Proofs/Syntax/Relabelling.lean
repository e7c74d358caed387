import ExprMachine.Proofs.Syntax.Embedding
import ExprMachine.Token.Scan

/-! The parser decides by the kinds of tokens alone. All it takes from their places are lines
for the tree. So tokens may carry labels for lines, and get their places after they are parsed. -/

namespace ExprMachine

def Expr.relabel (f : Nat → Nat) : Expr → Expr
  | literal value line => .literal value (f line)
  | group inner => .group (inner.relabel f)
  | unary op line operand => .unary op (f line) (operand.relabel f)
  | binary op line left right => .binary op (f line) (left.relabel f) (right.relabel f)

def Stmt.relabel (f : Nat → Nat) (s : Stmt) : Stmt := ⟨s.printed, s.value.relabel f, f s.line⟩

/-- The token at the place that `f` has for its line. -/
def Token.placed (f : Nat → Place) (t : Token) : Token := { t with place := f t.place.line }

def Mistake.placed (f : Nat → Place) (m : Mistake) : Mistake :=
  ⟨m.expected, m.rest.map (Token.placed f)⟩

def Parsed.placed {α : Type} (f : Nat → Place) (lift : α → α) : Parsed α → Parsed α
  | .ok (a, rest) => .ok (lift a, rest.map (Token.placed f))
  | .error m => .error (m.placed f)

/-- The lines of the places. -/
def lineOf (f : Nat → Place) (label : Nat) : Nat := (f label).line

section Parsing

variable (f : Nat → Place)

@[simp] theorem Token.kind_placed (t : Token) : (t.placed f).kind = t.kind := rfl

@[simp] theorem Token.line_placed (t : Token) :
    (t.placed f).place.line = lineOf f t.place.line := rfl

theorem expect_placed (kind : Kind) (expected : Expected) (ts : List Token) :
    expect kind expected (ts.map (Token.placed f)) =
      Parsed.placed f (Token.placed f) (expect kind expected ts) := by
  cases ts with
  | nil => rfl
  | cons t us =>
    rw [List.map_cons]
    by_cases ht : t.kind = kind
    · rw [expect, expect, if_pos ht, if_pos (show (t.placed f).kind = kind from ht)]
      rfl
    · rw [expect, expect, if_neg ht, if_neg (show (t.placed f).kind ≠ kind from ht)]
      rfl

theorem closeGroup_placed (e : Expr) (ts : List Token) :
    closeGroup (e.relabel (lineOf f)) (ts.map (Token.placed f)) =
      (closeGroup e ts).placed f (Expr.relabel (lineOf f)) := by
  rw [closeGroup, closeGroup, expect_placed]
  cases expect .rightParen .closingParen ts <;> rfl

variable {parse : Nat → List Token → Parsed Expr}
  (hp : ∀ strength ts, parse strength (ts.map (Token.placed f)) =
    (parse strength ts).placed f (Expr.relabel (lineOf f)))
include hp

theorem operators_placed (strength bound : Nat) (left : Expr) (ts : List Token) :
    operators parse strength bound (left.relabel (lineOf f)) (ts.map (Token.placed f)) =
      (operators parse strength bound left ts).placed f (Expr.relabel (lineOf f)) := by
  induction bound generalizing left ts with
  | zero => rfl
  | succ bound ih =>
    cases ts with
    | nil => rfl
    | cons t us =>
      simp only [List.map_cons, operators, Token.kind_placed, Token.line_placed]
      cases t.kind.binaryOp? with
      | none => rfl
      | some op =>
        by_cases hs : strength ≤ op.strength
        · simp only [if_pos hs, hp]
          cases parse (op.strength + 1) us with
          | error m => rfl
          | ok result => exact ih (.binary op t.place.line left result.1) result.2
        · simp only [if_neg hs]
          rfl

theorem operand_placed (ts : List Token) :
    operand parse (ts.map (Token.placed f)) =
      (operand parse ts).placed f (Expr.relabel (lineOf f)) := by
  cases ts with
  | nil => rfl
  | cons t us =>
    rw [List.map_cons]
    rcases Option.eq_none_or_eq_some t.kind.literal? with hv | ⟨v, hv⟩
    · rcases Option.eq_none_or_eq_some t.kind.unaryOp? with ho | ⟨op, ho⟩
      · by_cases ht : t.kind = .leftParen
        · rw [operand_group hv ho ht, operand_group (t := t.placed f) hv ho ht, hp]
          cases parse 0 us with
          | error m => rfl
          | ok result => exact closeGroup_placed f result.1 result.2
        · rw [operand_stop hv ho ht, operand_stop (t := t.placed f) hv ho ht]
          rfl
      · simp only [operand, Token.kind_placed, Token.line_placed, hv, ho, hp]
        cases parse unaryStrength us <;> rfl
    · simp only [operand, Token.kind_placed, Token.line_placed, hv]
      rfl

end Parsing

section

variable (f : Nat → Place)

theorem expression_placed (bound room strength : Nat) (ts : List Token) :
    expression bound room strength (ts.map (Token.placed f)) =
      (expression bound room strength ts).placed f (Expr.relabel (lineOf f)) := by
  induction room generalizing strength ts with
  | zero => rfl
  | succ room ih =>
    simp only [expression, operand_placed f ih]
    cases operand (expression bound room) ts with
    | error m => rfl
    | ok result => exact operators_placed f ih strength bound result.1 result.2

theorem statementBody_placed (bound : Nat) (printed : Bool) (ts : List Token) :
    statementBody bound printed (ts.map (Token.placed f)) =
      (statementBody bound printed ts).placed f (Stmt.relabel (lineOf f)) := by
  simp only [statementBody, expression_placed]
  cases expression bound nestingLimit 0 ts with
  | error m => rfl
  | ok result =>
    simp only [Parsed.placed, expect_placed]
    cases expect .semicolon
      (if printed then .semicolonAfterValue else .semicolonAfterExpression) result.2 <;> rfl

theorem statement_placed (bound : Nat) (ts : List Token) :
    statement bound (ts.map (Token.placed f)) =
      (statement bound ts).placed f (Stmt.relabel (lineOf f)) := by
  cases ts with
  | nil => exact statementBody_placed f bound false []
  | cons t us =>
    simp only [List.map_cons, statement, Token.kind_placed]
    split
    · exact statementBody_placed f bound true us
    · exact statementBody_placed f bound false (t :: us)

theorem resume_placed (ts : List Token) :
    resume (ts.map (Token.placed f)) = (resume ts).map (Token.placed f) := by
  induction ts with
  | nil => rfl
  | cons t us ih =>
    simp only [List.map_cons, resume, Token.kind_placed, ih]
    split
    · rfl
    · split <;> rfl

theorem recover_placed (ts : List Token) (m : Mistake) :
    recover (ts.map (Token.placed f)) (m.placed f) = (recover ts m).map (Token.placed f) := by
  cases ts with
  | nil => rfl
  | cons t us =>
    rw [List.map_cons, recover_cons, recover_cons]
    by_cases hp : t.passed = true
    · rw [if_pos hp, if_pos (show (t.placed f).passed = true from hp)]
      exact resume_placed f m.rest
    · rw [if_neg hp, if_neg (show ¬(t.placed f).passed = true from hp)]
      by_cases hs : t.kind = .semicolon
      · rw [if_pos hs, if_pos (show (t.placed f).kind = .semicolon from hs)]
      · rw [if_neg hs, if_neg (show (t.placed f).kind ≠ .semicolon from hs)]
        exact resume_placed f us

theorem statements_placed (bound count : Nat) (ts : List Token) :
    statements bound count (ts.map (Token.placed f)) =
      ((statements bound count ts).1.map (Mistake.placed f),
        (statements bound count ts).2.map (Stmt.relabel (lineOf f))) := by
  induction count generalizing ts with
  | zero => cases ts <;> rfl
  | succ count ih =>
    cases ts with
    | nil => rfl
    | cons t us =>
      have hs := statement_placed f bound (t :: us)
      rw [List.map_cons] at hs
      rw [List.map_cons, statements, statements, hs]
      · cases statement bound (t :: us) with
        | error m =>
          have hr := recover_placed f (t :: us) m
          rw [List.map_cons] at hr
          simp only [Parsed.placed, hr, ih]
          rfl
        | ok result =>
          simp only [Parsed.placed, ih]
          rfl
      all_goals exact List.cons_ne_nil _ _

theorem parse_placed (ts : List Token) :
    parse (ts.map (Token.placed f)) =
      ((parse ts).1.map (Mistake.placed f), (parse ts).2.map (Stmt.relabel (lineOf f))) := by
  rw [parse, List.length_map]
  exact statements_placed f ts.length ts.length ts

end

/-- Every token with its number in place of a line. -/
def numbered (ts : List Token) : List Token :=
  ts.mapIdx fun i t => { t with place := ⟨i, 0⟩ }

/-- The place of a token by its number. Any other number stands for the end of the text. -/
def Scan.placeOf (s : Scan) (i : Nat) : Place := (s.tokens[i]?.map Token.place).getD s.finish

theorem placed_numbered (s : Scan) : (numbered s.tokens).map (Token.placed s.placeOf) = s.tokens := by
  refine List.ext_getElem (by simp [numbered]) fun i hi hi' => ?_
  simp [numbered, Token.placed, Scan.placeOf, hi']

theorem parse_numbered (s : Scan) :
    parse s.tokens = ((parse (numbered s.tokens)).1.map (Mistake.placed s.placeOf),
      (parse (numbered s.tokens)).2.map (Stmt.relabel (lineOf s.placeOf))) := by
  rw [← parse_placed, placed_numbered]

end ExprMachine
