import ExprMachine.Proofs.Compile.InTurn
import ExprMachine.Proofs.Compile.Meaning
import ExprMachine.Proofs.Decimal.Order

/-! The comparisons that have no instruction of their own. The machine compares the other way round
and negates what it finds, which is another question where a number is NaN. -/

namespace ExprMachine

namespace BinaryOp

def compares : BinaryOp → Bool
  | equal | less | lessEqual | greater | greaterEqual => true
  | _ => false

/-- What the machine finds when it compares two numbers. -/
def holds (op : BinaryOp) (x y : Float) : Bool :=
  match op with
  | equal => x == y
  | less => decide (x < y)
  | lessEqual => !decide (y < x)
  | greater => decide (y < x)
  | greaterEqual => !decide (x < y)
  | _ => false

theorem eval_numbers {op : BinaryOp} (h : op.compares = true) (x y : Float) :
    op.eval (.number x) (.number y) = .ok (.boolean (op.holds x y)) := by
  cases op <;> first | rfl | cases h

theorem greaterEqual_holds (x y : Float) : greaterEqual.holds x y = true ↔
    greater.holds x y = true ∨ equal.holds x y = true ∨ x.isNaN = true ∨ y.isNaN = true := by
  simp only [holds, Bool.not_eq_true', decide_eq_false_iff_not, decide_eq_true_eq]
  exact Magnitude.not_less_iff x y

theorem lessEqual_holds (x y : Float) : lessEqual.holds x y = true ↔
    less.holds x y = true ∨ equal.holds x y = true ∨ x.isNaN = true ∨ y.isNaN = true := by
  simp only [holds, Bool.not_eq_true', decide_eq_false_iff_not, decide_eq_true_eq]
  exact Magnitude.not_greater_iff x y

theorem holds_of_isNaN {x y : Float} (h : x.isNaN = true ∨ y.isNaN = true) :
    less.holds x y = false ∧ greater.holds x y = false ∧ equal.holds x y = false := by
  obtain ⟨hl, hg, he⟩ := Magnitude.unordered x y h
  exact ⟨decide_eq_false hl, decide_eq_false hg, he⟩

end BinaryOp

/-- The source is one statement, which prints whether the comparison holds of its operands. -/
def PrintsComparison (source : String) (op : BinaryOp) (a b : Expr) : Prop :=
  ∃ s c line last, scan source = .ok s ∧
    parse s.tokens = ([], [⟨true, .binary op line a b, last⟩]) ∧
    compile source = .ok c ∧ c.code.size < Word.size

namespace Machine

def PrintsTrue (m : Machine) (source : String) : Prop :=
  (m.interpret source).2.output.toList = m.output.toList ++ ["true"]

variable {m : Machine} {a b : Expr} {x y : Float}

theorem interpret_comparison (hm : m.tornDown = false) (ha : a.eval = .ok (.number x))
    (hb : b.eval = .ok (.number y)) (hroom : max a.need (b.need + 1) ≤ m.stack.capacity)
    {source : String} {op : BinaryOp} (hop : op.compares = true)
    (h : PrintsComparison source op a b) :
    (m.interpret source).1 = .ok .ok ∧ (m.interpret source).2.output.toList =
      m.output.toList ++ [(Datum.boolean (op.holds x y)).toText] := by
  obtain ⟨s, c, line, last, hs, hp, hc, hw⟩ := h
  obtain ⟨hv, hshown⟩ := interpret_shows hm hs hp hc hw
  have hneed : ∀ s ∈ [(⟨true, .binary op line a b, last⟩ : Stmt)],
      s.value.need ≤ m.stack.capacity := by
    intro s hs
    obtain rfl := List.mem_singleton.mp hs
    simp only [Expr.need]
    omega
  obtain ⟨left, hrun⟩ := ContentMachine.runAll_programCode hneed s.finish.line []
  have heval : (Expr.binary op line a b).eval = .ok (.boolean (op.holds x y)) := by
    simp only [Expr.eval, ha, hb, BinaryOp.eval_numbers hop, onLine]
  have hall : evalAll [(⟨true, .binary op line a b, last⟩ : Stmt)] =
      ([(Datum.boolean (op.holds x y)).toText], none) := by
    simp only [evalAll, heval, if_true]
  rw [hall] at hrun
  have ho := hshown.output
  rw [hrun] at hv ho
  exact ⟨hv, ho⟩

theorem printsTrue_iff (hm : m.tornDown = false) (ha : a.eval = .ok (.number x))
    (hb : b.eval = .ok (.number y)) (hroom : max a.need (b.need + 1) ≤ m.stack.capacity)
    {source : String} {op : BinaryOp} (hop : op.compares = true)
    (h : PrintsComparison source op a b) : m.PrintsTrue source ↔ op.holds x y = true := by
  obtain ⟨-, ho⟩ := interpret_comparison hm ha hb hroom hop h
  rw [PrintsTrue, ho]
  cases op.holds x y <;> simp [Datum.toText]

/-- Two operands that come to numbers are compared by five statements. Where neither number is NaN,
"at least" prints true exactly if "greater" or "equal" does, and "at most" exactly if "less" or
"equal" does. Where one is NaN both print true, and the three others print false. -/
theorem derived_comparisons (ha : a.eval = .ok (.number x)) (hb : b.eval = .ok (.number y))
    {source : BinaryOp → String}
    (hsource : ∀ op, op.compares = true → PrintsComparison (source op) op a b)
    (hm : m.tornDown = false) (hroom : max a.need (b.need + 1) ≤ m.stack.capacity) :
    (∀ op, op.compares = true → (m.interpret (source op)).1 = .ok .ok ∧
      ((m.interpret (source op)).2.output.toList = m.output.toList ++ ["true"] ∨
        (m.interpret (source op)).2.output.toList = m.output.toList ++ ["false"])) ∧
    (x.isNaN = false → y.isNaN = false →
      (m.PrintsTrue (source .greaterEqual) ↔
        m.PrintsTrue (source .greater) ∨ m.PrintsTrue (source .equal)) ∧
      (m.PrintsTrue (source .lessEqual) ↔
        m.PrintsTrue (source .less) ∨ m.PrintsTrue (source .equal))) ∧
    (x.isNaN = true ∨ y.isNaN = true →
      (m.PrintsTrue (source .greaterEqual) ∧ m.PrintsTrue (source .lessEqual)) ∧
      ¬m.PrintsTrue (source .greater) ∧ ¬m.PrintsTrue (source .less) ∧
      ¬m.PrintsTrue (source .equal)) := by
  have hprints {op : BinaryOp} (hop : op.compares = true) :
      m.PrintsTrue (source op) ↔ op.holds x y = true :=
    printsTrue_iff hm ha hb hroom hop (hsource op hop)
  rw [hprints rfl, hprints rfl, hprints rfl, hprints rfl, hprints rfl]
  refine ⟨fun op hop => ?_, fun hx hy => ?_, fun hnan => ?_⟩
  · obtain ⟨hv, ho⟩ := interpret_comparison hm ha hb hroom hop (hsource op hop)
    rw [ho]
    cases op.holds x y
    · exact ⟨hv, .inr rfl⟩
    · exact ⟨hv, .inl rfl⟩
  · have hge := BinaryOp.greaterEqual_holds x y
    have hle := BinaryOp.lessEqual_holds x y
    simp only [hx, hy, Bool.false_eq_true, or_false] at hge hle
    exact ⟨hge, hle⟩
  · obtain ⟨hl, hg, he⟩ := BinaryOp.holds_of_isNaN hnan
    have hge := (BinaryOp.greaterEqual_holds x y).mpr (.inr (.inr hnan))
    have hle := (BinaryOp.lessEqual_holds x y).mpr (.inr (.inr hnan))
    simp only [hl, hg, he, Bool.false_eq_true, not_false_eq_true, and_self, hge, hle]

end Machine

theorem PrintsComparison.of_checks {source : String} {op : BinaryOp} {a b : Expr} (line last : Nat)
    (hp : ((scan source).toOption.map fun s => ((parse s.tokens).1.isEmpty, (parse s.tokens).2)) =
      some (true, [⟨true, .binary op line a b, last⟩]))
    (hc : ((compile source).toOption.map fun c => decide (c.code.size < Word.size)) = some true) :
    PrintsComparison source op a b := by
  obtain ⟨s, hs, hparsed⟩ := exists_ok_of_toOption hp
  obtain ⟨c, hc, hw⟩ := exists_ok_of_toOption hc
  rw [Prod.mk.injEq, List.isEmpty_iff] at hparsed
  exact ⟨s, c, line, last, hs, Prod.ext hparsed.1 hparsed.2, hc, of_decide_eq_true hw⟩

theorem derived_comparisons_half :
    let source : BinaryOp → String
      | .equal => "print 1/2 == 0.5;"
      | .less => "print 1/2 < 0.5;"
      | .lessEqual => "print 1/2 <= 0.5;"
      | .greater => "print 1/2 > 0.5;"
      | _ => "print 1/2 >= 0.5;"
    let m := Machine.new ⟨2, false, false⟩
    (m.interpret (source .greaterEqual)).1 = .ok .ok ∧
      (m.PrintsTrue (source .greaterEqual) ↔
        m.PrintsTrue (source .greater) ∨ m.PrintsTrue (source .equal)) := by
  intro source m
  let a : Expr := .binary .divide 1 (.literal (.number 1) 1) (.literal (.number 2) 1)
  let b : Expr := .literal (.number 0.5) 1
  have ha : a.eval = .ok (.number (1 / 2)) := by
    have hdivisor : ((2 : Float) == 0) = false := by decide +kernel
    simp only [a, Expr.eval, Literal.datum, BinaryOp.eval, Datum.calculate, hdivisor,
      Bool.false_eq_true, if_false, onLine]
  have hb : b.eval = .ok (.number 0.5) := rfl
  have hsource : ∀ op, op.compares = true → PrintsComparison (source op) op a b := by
    intro op hop
    cases op with
    | notEqual | add | subtract | multiply | divide => cases hop
    | _ => exact .of_checks 1 1 (by decide +kernel) (by decide +kernel)
  obtain ⟨hall, hnumbers, -⟩ := Machine.derived_comparisons (m := m) ha hb hsource rfl (by decide)
  have hx : (1 / 2 : Float).isNaN = false := by decide +kernel
  have hy : (0.5 : Float).isNaN = false := by decide +kernel
  exact ⟨(hall .greaterEqual rfl).1, (hnumbers hx hy).1⟩

/-- A literal of 309 nines is infinite, and the difference of two of them is NaN. It is at least one,
but it is neither greater than one nor equal to it. -/
theorem nan_at_least_one :
    let operand : List Char :=
      '(' :: List.replicate 309 '9' ++ '-' :: List.replicate 309 '9' ++ [')']
    let source : String := String.ofList ("print ".toList ++ operand ++ ">=1;print ".toList ++
      operand ++ ">1;print ".toList ++ operand ++ "==1;".toList)
    ∃ s a b x y, scan source = .ok s ∧
      parse s.tokens = ([], [⟨true, .binary .greaterEqual 1 a b, 1⟩,
        ⟨true, .binary .greater 1 a b, 1⟩, ⟨true, .binary .equal 1 a b, 1⟩]) ∧
      a.eval = .ok (.number x) ∧ b.eval = .ok (.number y) ∧
      ((Machine.new ⟨256, false, false⟩).interpret source).1 = .ok .ok ∧
      ((Machine.new ⟨256, false, false⟩).interpret source).2.output.toList =
        ["true", "false", "false"] := by
  intro operand source
  let large : Float := Float.ofBits 0x7FF0000000000000
  let a : Expr :=
    .group (.binary .subtract 1 (.literal (.number large) 1) (.literal (.number large) 1))
  let b : Expr := .literal (.number 1) 1
  let ss : List Stmt := [⟨true, .binary .greaterEqual 1 a b, 1⟩,
    ⟨true, .binary .greater 1 a b, 1⟩, ⟨true, .binary .equal 1 a b, 1⟩]
  have hparse : ((scan source).toOption.map fun s =>
      ((parse s.tokens).1.isEmpty, (parse s.tokens).2)) = some (true, ss) := by
    rw [scan, String.toList_ofList]
    decide +kernel
  have hcompile : ((compile source).toOption.map fun c => decide (c.code.size < Word.size)) =
      some true := by
    rw [compile, scan, String.toList_ofList]
    decide +kernel
  obtain ⟨s, hs, hp⟩ := exists_ok_of_toOption hparse
  obtain ⟨c, hc, hw⟩ := exists_ok_of_toOption hcompile
  rw [Prod.mk.injEq, List.isEmpty_iff] at hp
  have hp : parse s.tokens = ([], ss) := Prod.ext hp.1 hp.2
  obtain ⟨hv, hshown⟩ := Machine.interpret_shows (m := .new ⟨256, false, false⟩) rfl hs hp hc
    (of_decide_eq_true hw)
  have hneed : ∀ s ∈ ss, s.value.need ≤ 256 := by decide +kernel
  obtain ⟨left, hrun⟩ := ContentMachine.runAll_programCode hneed s.finish.line []
  have heval : evalAll ss = (["true", "false", "false"], none) := by decide +kernel
  rw [heval] at hrun
  have ho := hshown.output
  rw [show (Machine.new ⟨256, false, false⟩).stack.capacity = 256 from rfl, hrun] at hv ho
  exact ⟨s, a, b, _, _, hs, hp, rfl, rfl, hv, ho⟩

end ExprMachine
