import ExprMachine.Proofs.Compile.Postorder
import ExprMachine.Proofs.Syntax.Relabelling

/-! Trees with other lines have the same instructions, on these lines. -/

namespace ExprMachine

def Emission.relabel (f : Nat → Nat) (m : Emission) : Emission := ⟨m.instruction, f m.line⟩

theorem BinaryOp.code_relabel (op : BinaryOp) (f : Nat → Nat) (line : Nat) :
    op.code (f line) = (op.code line).map (Emission.relabel f) := by
  cases op <;> rfl

theorem Expr.postorder_relabel (e : Expr) (f : Nat → Nat) :
    (e.relabel f).postorder = e.postorder.map (Emission.relabel f) := by
  induction e with
  | literal v line =>
    cases v with
    | boolean b => cases b <;> rfl
    | nil | number | text => rfl
  | group inner ih => exact ih
  | unary op line operand ih =>
    rw [relabel, postorder_unary, postorder_unary, ih, List.map_append]
    rfl
  | binary op line left right ihl ihr =>
    simp only [relabel, postorder, ihl, ihr, op.code_relabel, List.map_append]

theorem Stmt.postorder_relabel (s : Stmt) (f : Nat → Nat) :
    (s.relabel f).postorder = s.postorder.map (Emission.relabel f) := by
  simp only [postorder, relabel, Expr.postorder_relabel, List.map_append]
  rfl

theorem programCode_relabel (ss : List Stmt) (f : Nat → Nat) (last : Nat) :
    programCode (ss.map (Stmt.relabel f)) (f last) =
      (programCode ss last).map (Emission.relabel f) := by
  induction ss with
  | nil => rfl
  | cons s ss ih =>
    rw [List.map_cons, programCode_cons, programCode_cons, List.map_append, ih, s.postorder_relabel]

/-- The code of a program that is given by numbered tokens, with lines for the numbers. -/
theorem programCode_numbered (s : Scan) (ss : List Stmt) :
    programCode (ss.map (Stmt.relabel (lineOf s.placeOf))) s.finish.line =
      (programCode ss s.tokens.length).map (Emission.relabel (lineOf s.placeOf)) := by
  rw [← programCode_relabel]
  simp [lineOf, Scan.placeOf]

/-! To stand further down in a text is one way to have other lines. -/

theorem Expr.down_eq_relabel (n : Nat) (e : Expr) : e.down n = e.relabel (· + n) := by
  induction e with
  | literal => rfl
  | group inner ih => rw [down, relabel, ih]
  | unary op line operand ih => rw [down, relabel, ih]
  | binary op line left right ihl ihr => rw [down, relabel, ihl, ihr]

def Emission.down (n : Nat) (m : Emission) : Emission := ⟨m.instruction, m.line + n⟩

theorem programCode_down (ss : List Stmt) (last n : Nat) :
    programCode (ss.map (Stmt.down n)) (last + n) =
      (programCode ss last).map (Emission.down n) := by
  have hs : Stmt.down n = Stmt.relabel (· + n) := by
    funext s
    rw [Stmt.down, Stmt.relabel, s.value.down_eq_relabel]
  rw [hs]
  exact programCode_relabel ss (· + n) last

end ExprMachine
