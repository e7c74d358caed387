import ExprMachine.Proofs.Chunk.Decoding
import ExprMachine.Proofs.Syntax.Programs

/-! A text compiles exactly if it is a program of the grammar that does not nest too deeply,
and its code is then the tree of the program in post-order. -/

namespace ExprMachine

/-- The instructions of an operator alone. The machine has no instruction for three of the
comparisons and negates the opposite one. -/
def BinaryOp.code (line : Nat) : BinaryOp → List Emission
  | equal => [⟨.op .equal, line⟩]
  | notEqual => [⟨.op .equal, line⟩, ⟨.op .not, line⟩]
  | less => [⟨.op .less, line⟩]
  | lessEqual => [⟨.op .greater, line⟩, ⟨.op .not, line⟩]
  | greater => [⟨.op .greater, line⟩]
  | greaterEqual => [⟨.op .less, line⟩, ⟨.op .not, line⟩]
  | add => [⟨.op .add, line⟩]
  | subtract => [⟨.op .subtract, line⟩]
  | multiply => [⟨.op .multiply, line⟩]
  | divide => [⟨.op .divide, line⟩]

def Expr.postorder : Expr → List Emission
  | literal .nil line => [⟨.op .nil, line⟩]
  | literal (.boolean true) line => [⟨.op .yes, line⟩]
  | literal (.boolean false) line => [⟨.op .no, line⟩]
  | literal (.number x) line => [⟨.load (.number x.toBits), line⟩]
  | literal (.text s) line => [⟨.load (.text s), line⟩]
  | group inner => inner.postorder
  | unary .negate line operand => operand.postorder ++ [⟨.op .negate, line⟩]
  | unary .not line operand => operand.postorder ++ [⟨.op .not, line⟩]
  | binary op line left right => left.postorder ++ right.postorder ++ op.code line

def Stmt.postorder (s : Stmt) : List Emission :=
  s.value.postorder ++ [⟨.op (if s.printed then .print else .pop), s.line⟩]

def programCode (ss : List Stmt) (last : Nat) : List Emission :=
  ss.flatMap Stmt.postorder ++ [⟨.op .halt, last⟩]

theorem Expr.postorder_unary (op : UnaryOp) (line : Nat) (operand : Expr) :
    (unary op line operand).postorder = operand.postorder ++ [⟨.op op.opcode, line⟩] := by
  cases op <;> rfl

theorem Literal.postorder_eq (v : Literal) (line : Nat) :
    (Expr.literal v line).postorder = [⟨v.instruction, line⟩] := by
  cases v with
  | boolean b => cases b <;> rfl
  | nil | number | text => rfl

theorem BinaryOp.code_eq (op : BinaryOp) (line : Nat) :
    op.code line = op.opcodes.map fun code => ⟨.op code, line⟩ := by
  cases op <;> rfl

theorem programCode_cons (s : Stmt) (ss : List Stmt) (last : Nat) :
    programCode (s :: ss) last = s.postorder ++ programCode ss last := by
  rw [programCode, List.flatMap_cons, List.append_assoc, programCode]

/-- An instruction that goes on to the next, and has no operand of its own. -/
def Instruction.Inner (i : Instruction) : Prop := i.Plain ∧ i ≠ .op .halt

theorem Expr.postorder_inner {e : Expr} {m : Emission} (h : m ∈ e.postorder) :
    m.instruction.Inner := by
  induction e with
  | literal v line =>
    cases v with
    | boolean b => cases b <;> simp [postorder] at h <;> subst h <;> exact ⟨rfl, nofun⟩
    | nil => simp [postorder] at h; subst h; exact ⟨rfl, nofun⟩
    | number | text => simp [postorder] at h; subst h; exact ⟨trivial, nofun⟩
  | group inner ih => exact ih h
  | unary op line operand ih =>
    rw [postorder_unary, List.mem_append, List.mem_singleton] at h
    rcases h with h | rfl
    · exact ih h
    · cases op <;> exact ⟨rfl, nofun⟩
  | binary op line left right ihl ihr =>
    simp only [postorder, List.mem_append] at h
    rcases h with (h | h) | h
    · exact ihl h
    · exact ihr h
    · cases op <;> simp [BinaryOp.code] at h <;> rcases h with rfl | rfl <;>
        exact ⟨rfl, nofun⟩

theorem Stmt.postorder_inner {s : Stmt} {m : Emission} (h : m ∈ s.postorder) :
    m.instruction.Inner := by
  simp only [postorder, List.mem_append, List.mem_singleton] at h
  rcases h with h | rfl
  · exact Expr.postorder_inner h
  · cases s.printed <;> exact ⟨rfl, nofun⟩

theorem programCode_plain {ss : List Stmt} {last : Nat} {m : Emission}
    (h : m ∈ programCode ss last) : m.instruction.Plain := by
  simp only [programCode, List.mem_append, List.mem_flatMap, List.mem_singleton] at h
  rcases h with ⟨s, -, h⟩ | rfl
  · exact (Stmt.postorder_inner h).1
  · rfl

end ExprMachine
