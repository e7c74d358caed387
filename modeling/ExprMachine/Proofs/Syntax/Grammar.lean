import ExprMachine.Syntax.Basic
import ExprMachine.Token.Basic

/-! The grammar of programs, level by level, from the operators that bind loosely to those
that bind tightly. It knows nothing of how programs are parsed. -/

namespace ExprMachine

inductive Level where
  | equality
  | comparison
  | term
  | factor
  | unary
  | primary
deriving DecidableEq, Repr

/-- The level of what stands to the right of an operator. -/
def Level.tighter : Level → Level
  | equality => comparison
  | comparison => term
  | term => factor
  | factor => unary
  | unary => primary
  | primary => primary

inductive Level.Joins : Level → Kind → BinaryOp → Prop
  | equal : Joins .equality .equalEqual .equal
  | notEqual : Joins .equality .bangEqual .notEqual
  | less : Joins .comparison .less .less
  | lessEqual : Joins .comparison .lessEqual .lessEqual
  | greater : Joins .comparison .greater .greater
  | greaterEqual : Joins .comparison .greaterEqual .greaterEqual
  | add : Joins .term .plus .add
  | subtract : Joins .term .minus .subtract
  | multiply : Joins .factor .star .multiply
  | divide : Joins .factor .slash .divide

namespace Kind

inductive Negates : Kind → UnaryOp → Prop
  | negate : Negates .minus .negate
  | not : Negates .bang .not

inductive Denotes : Kind → Literal → Prop
  | number (x : Float) : Denotes (.number x) (.number x)
  | text (s : String) : Denotes (.string s) (.text s)
  | yes : Denotes (.keyword .trueWord) (.boolean true)
  | no : Denotes (.keyword .falseWord) (.boolean false)
  | nil : Denotes (.keyword .nilWord) .nil

end Kind

/-- The tokens make up an expression of the level, and `e` is its tree. Operators of one
level group to the left. -/
inductive Derives : Level → List Token → Expr → Prop
  | literal {t : Token} {v : Literal} :
    t.kind.Denotes v → Derives .primary [t] (.literal v t.place.line)
  | group {opening closing : Token} {ts : List Token} {e : Expr} :
    opening.kind = .leftParen → Derives .equality ts e → closing.kind = .rightParen →
      Derives .primary (opening :: (ts ++ [closing])) (.group e)
  | unary {t : Token} {op : UnaryOp} {ts : List Token} {e : Expr} :
    t.kind.Negates op → Derives .unary ts e →
      Derives .unary (t :: ts) (.unary op t.place.line e)
  | binary {level : Level} {t : Token} {op : BinaryOp} {ls rs : List Token} {l r : Expr} :
    level.Joins t.kind op → Derives level ls l → Derives level.tighter rs r →
      Derives level (ls ++ t :: rs) (.binary op t.place.line l r)
  | tighter {level : Level} {ts : List Token} {e : Expr} :
    Derives level.tighter ts e → Derives level ts e

inductive DerivesStmt : List Token → Stmt → Prop
  | printed {word semicolon : Token} {ts : List Token} {e : Expr} :
    word.kind = .keyword .printWord → Derives .equality ts e → semicolon.kind = .semicolon →
      DerivesStmt (word :: (ts ++ [semicolon])) ⟨true, e, semicolon.place.line⟩
  | dropped {semicolon : Token} {ts : List Token} {e : Expr} :
    Derives .equality ts e → semicolon.kind = .semicolon →
      DerivesStmt (ts ++ [semicolon]) ⟨false, e, semicolon.place.line⟩

inductive DerivesProgram : List Token → List Stmt → Prop
  | nil : DerivesProgram [] []
  | cons {ts us : List Token} {s : Stmt} {rest : List Stmt} :
    DerivesStmt ts s → DerivesProgram us rest → DerivesProgram (ts ++ us) (s :: rest)

/-- How deeply an expression nests. A left operand costs nothing. -/
def Expr.nesting : Expr → Nat
  | literal _ _ => 1
  | group inner => 1 + inner.nesting
  | unary _ _ operand => 1 + operand.nesting
  | binary _ _ left right => max left.nesting (1 + right.nesting)

theorem Expr.nesting_pos (e : Expr) : 0 < e.nesting := by
  induction e with
  | literal => exact Nat.one_pos
  | group | unary => simp only [nesting]; omega
  | binary _ _ left right ihl ihr => simp only [nesting]; omega

/-- How many values an expression needs on the stack at once. -/
def Expr.need : Expr → Nat
  | literal _ _ => 1
  | group inner => inner.need
  | unary _ _ operand => operand.need
  | binary _ _ left right => max left.need (1 + right.need)

theorem Expr.need_le_nesting (e : Expr) : e.need ≤ e.nesting := by
  induction e with
  | literal => exact Nat.le_refl _
  | group | unary => simp only [need, nesting]; omega
  | binary _ _ left right ihl ihr => simp only [need, nesting]; omega

end ExprMachine
