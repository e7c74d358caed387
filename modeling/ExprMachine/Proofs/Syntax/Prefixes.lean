import Mathlib.Data.List.DropRight
import ExprMachine.Proofs.Syntax.Programs

/-! Beginnings of programs. What may come next depends on a few things only: whether an operand
has just ended, how many groups are open, and whether the statement prints. -/

namespace ExprMachine

def Viable (ts : List Token) : Prop := ∃ more ss, DerivesProgram (ts ++ more) ss

/-- The tokens before this one are the beginning of a program, and with it they are not. The
number after the last one stands for the end, where a program would have to end as well. -/
structure BreaksAt (ts : List Token) (n : Nat) : Prop where
  le : n ≤ ts.length
  viable : Viable (ts.take n)
  breaks : if n < ts.length then ¬Viable (ts.take (n + 1)) else ¬∃ ss, DerivesProgram ts ss

theorem Viable.of_append {ts us : List Token} (h : Viable (ts ++ us)) : Viable ts := by
  obtain ⟨more, ss, hd⟩ := h
  exact ⟨us ++ more, ss, by rwa [← List.append_assoc]⟩

theorem Viable.take_le {ts : List Token} {m n : Nat} (h : Viable (ts.take n)) (hmn : m ≤ n) :
    Viable (ts.take m) := by
  obtain ⟨more, hmore⟩ := List.take_prefix_take_left hmn (l := ts)
  rw [← hmore] at h
  exact h.of_append

theorem BreaksAt.le_of_breaksAt {ts : List Token} {m n : Nat} (hm : BreaksAt ts m)
    (hn : BreaksAt ts n) : m ≤ n := by
  by_contra hlt
  have hb := hn.breaks
  rw [if_pos (by have hle := hm.le; omega)] at hb
  exact hb (hm.viable.take_le (by omega))

theorem BreaksAt.iff_eq {ts : List Token} {m n : Nat} (hn : BreaksAt ts n) :
    BreaksAt ts m ↔ m = n := by
  constructor
  · intro hm
    exact Nat.le_antisymm (hm.le_of_breaksAt hn) (hn.le_of_breaksAt hm)
  · rintro rfl
    exact hn

theorem DerivesProgram.append {ts us : List Token} {ss rest : List Stmt}
    (h : DerivesProgram ts ss) (h' : DerivesProgram us rest) :
    DerivesProgram (ts ++ us) (ss ++ rest) := by
  induction h with
  | nil => exact h'
  | cons hs _ ih =>
    rw [List.append_assoc]
    exact .cons hs ih

/-- How far the reading of a program has come. -/
inductive Spot where
  | start
  | operand (printed : Bool) (depth : Nat)
  | operator (printed : Bool) (depth : Nat)
deriving DecidableEq

namespace Spot

def printed : Spot → Bool
  | start => false
  | operand printed _ => printed
  | operator printed _ => printed

def depth : Spot → Nat
  | start => 0
  | operand _ depth => depth
  | operator _ depth => depth

def expected : Spot → Expected
  | operator _ (_ + 1) => .closingParen
  | operator true 0 => .semicolonAfterValue
  | operator false 0 => .semicolonAfterExpression
  | _ => .operand

def intoOperand? (printed : Bool) (depth : Nat) (k : Kind) : Option Spot :=
  if k.literal?.isSome then some (.operator printed depth)
  else if k.unaryOp?.isSome then some (.operand printed depth)
  else if k = .leftParen then some (.operand printed (depth + 1))
  else none

def afterOperand? (printed : Bool) (depth : Nat) (k : Kind) : Option Spot :=
  if k.binaryOp?.isSome then some (.operand printed depth)
  else
    match depth with
    | depth + 1 => if k = .rightParen then some (.operator printed depth) else none
    | 0 => if k = .semicolon then some .start else none

def next? : Spot → Kind → Option Spot
  | start, k => if k = .keyword .printWord then some (.operand true 0) else intoOperand? false 0 k
  | operand printed depth, k => intoOperand? printed depth k
  | operator printed depth, k => afterOperand? printed depth k

def run? : Spot → List Token → Option Spot
  | q, [] => some q
  | q, t :: ts => (q.next? t.kind).bind fun r => r.run? ts

theorem run?_append (q : Spot) (ts us : List Token) :
    q.run? (ts ++ us) = (q.run? ts).bind fun r => r.run? us := by
  induction ts generalizing q with
  | nil => rfl
  | cons t ts ih =>
    cases hn : q.next? t.kind with
    | none => simp [run?, hn]
    | some r => simpa [run?, hn] using ih r

theorem run?_concat (q : Spot) (ts : List Token) (t : Token) :
    q.run? (ts ++ [t]) = (q.run? ts).bind fun r => r.next? t.kind := by
  simp [run?_append, run?]

variable {k : Kind} {printed : Bool} {depth : Nat}

theorem intoOperand?_literal {v : Literal} (h : k.Denotes v) :
    intoOperand? printed depth k = some (.operator printed depth) := by
  cases h <;> rfl

theorem intoOperand?_unary {op : UnaryOp} (h : k.Negates op) :
    intoOperand? printed depth k = some (.operand printed depth) := by
  cases h <;> rfl

theorem afterOperand?_joins {level : Level} {op : BinaryOp} (h : level.Joins k op) :
    afterOperand? printed depth k = some (.operand printed depth) := by
  cases h <;> rfl

theorem intoOperand?_eq_none (h : k.beginsOperand = false) :
    intoOperand? printed depth k = none := by
  simp only [Kind.beginsOperand, Bool.or_eq_false_iff, decide_eq_false_iff_not] at h
  simp [intoOperand?, h]

/-- The word that begins a statement is no operand, so any other beginning of one is read as
the beginning of an expression. -/
theorem run?_start {ts : List Token} {q : Spot} (h : (operand false 0).run? ts = some q)
    (hne : ts ≠ []) : start.run? ts = some q := by
  cases ts with
  | nil => exact absurd rfl hne
  | cons t ts =>
    have hprint : t.kind ≠ .keyword .printWord := by
      intro ht
      simp [run?, next?, ht, intoOperand?, Kind.literal?, Kind.unaryOp?] at h
    simpa only [run?, next?, if_neg hprint] using h

theorem run?_of_derives {level : Level} {ts : List Token} {e : Expr} (h : Derives level ts e)
    (printed : Bool) (depth : Nat) :
    (operand printed depth).run? ts = some (operator printed depth) := by
  induction h generalizing depth with
  | literal hv => simp [run?, next?, intoOperand?_literal hv]
  | group ho _ hc ih =>
    have hopen : intoOperand? printed depth .leftParen = some (operand printed (depth + 1)) := rfl
    have hclose : afterOperand? printed (depth + 1) .rightParen = some (operator printed depth) := rfl
    simp [run?, next?, run?_append, ho, hc, hopen, ih, hclose]
  | unary ht _ ih => simp [run?, next?, intoOperand?_unary ht, ih]
  | binary hj _ _ ihl ihr => simp [run?, next?, run?_append, ihl, afterOperand?_joins hj, ihr]
  | tighter _ ih => exact ih depth

theorem run?_of_derivesStmt {ts : List Token} {s : Stmt} (h : DerivesStmt ts s) :
    start.run? ts = some start := by
  have hend (printed : Bool) : afterOperand? printed 0 .semicolon = some start := rfl
  cases h with
  | printed hw he hs => simp [run?, next?, run?_append, hw, run?_of_derives he, hs, hend]
  | dropped he hs =>
    obtain ⟨t, us, rfl, -⟩ := he.head
    rw [run?_concat, run?_start (run?_of_derives he false 0) (List.cons_ne_nil t us)]
    simp [next?, hs, hend]

theorem run?_of_derivesProgram {ts : List Token} {ss : List Stmt} (h : DerivesProgram ts ss) :
    start.run? ts = some start := by
  induction h with
  | nil => rfl
  | cons hs _ ih => rw [run?_append, run?_of_derivesStmt hs, Option.bind_some, ih]

end Spot

theorem Viable.exists_run? {ts : List Token} (h : Viable ts) :
    ∃ q, Spot.start.run? ts = some q := by
  obtain ⟨more, ss, hd⟩ := h
  have hrun := Spot.run?_of_derivesProgram hd
  rw [Spot.run?_append] at hrun
  obtain ⟨q, hq, -⟩ := Option.bind_eq_some_iff.mp hrun
  exact ⟨q, hq⟩

/-! What the tokens before a place say about it. -/

def Kind.endsOperand (k : Kind) : Bool := k.literal?.isSome || k = .rightParen

def afterOperand (ts : List Token) : Bool := ts.getLast?.any (·.kind.endsOperand)

def inGroup (ts : List Token) : Bool :=
  decide (ts.countP (·.kind = .rightParen) < ts.countP (·.kind = .leftParen))

def lastStatement (ts : List Token) : List Token := ts.rtakeWhile (·.kind ≠ .semicolon)

def printing (ts : List Token) : Bool :=
  (lastStatement ts).head?.any (·.kind = .keyword .printWord)

/-- What has to come after the beginning of a program: an operand, or where one has just ended
what closes its group or its statement. -/
def expectedAfter (ts : List Token) : Expected :=
  if afterOperand ts then
    if inGroup ts then .closingParen
    else if printing ts then .semicolonAfterValue
    else .semicolonAfterExpression
  else .operand

namespace Spot

def isOperator : Spot → Bool
  | operator _ _ => true
  | _ => false

variable {k : Kind} {q r : Spot}

theorem intoOperand?_cases {printed : Bool} {depth : Nat}
    (h : intoOperand? printed depth k = some r) :
    (∃ v, k.Denotes v ∧ r = .operator printed depth) ∨
      (∃ op, k.Negates op ∧ r = .operand printed depth) ∨
      k = .leftParen ∧ r = .operand printed (depth + 1) := by
  unfold intoOperand? at h
  by_cases hv : k.literal?.isSome
  · obtain ⟨v, hv'⟩ := Option.isSome_iff_exists.mp hv
    rw [if_pos hv] at h
    exact .inl ⟨v, Kind.denotes_iff.mpr hv', (Option.some.inj h).symm⟩
  rw [if_neg hv] at h
  by_cases ho : k.unaryOp?.isSome
  · obtain ⟨op, ho'⟩ := Option.isSome_iff_exists.mp ho
    rw [if_pos ho] at h
    exact .inr (.inl ⟨op, Kind.negates_iff.mpr ho', (Option.some.inj h).symm⟩)
  rw [if_neg ho] at h
  by_cases hp : k = .leftParen
  · rw [if_pos hp] at h
    exact .inr (.inr ⟨hp, (Option.some.inj h).symm⟩)
  · rw [if_neg hp] at h
    cases h

theorem afterOperand?_cases {printed : Bool} {depth : Nat}
    (h : afterOperand? printed depth k = some r) :
    (∃ level op, Level.Joins level k op ∧ r = .operand printed depth) ∨
      (∃ d, depth = d + 1 ∧ k = .rightParen ∧ r = .operator printed d) ∨
      depth = 0 ∧ k = .semicolon ∧ r = .start := by
  unfold afterOperand? at h
  by_cases ho : k.binaryOp?.isSome
  · obtain ⟨op, ho'⟩ := Option.isSome_iff_exists.mp ho
    rw [if_pos ho] at h
    exact .inl ⟨_, op, Level.joins_of_binaryOp? ho', (Option.some.inj h).symm⟩
  rw [if_neg ho] at h
  cases depth with
  | zero =>
    by_cases hs : k = .semicolon
    · simp only [if_pos hs, Option.some.injEq] at h
      exact .inr (.inr ⟨rfl, hs, h.symm⟩)
    · simp [hs] at h
  | succ d =>
    by_cases hp : k = .rightParen
    · simp only [if_pos hp, Option.some.injEq] at h
      exact .inr (.inl ⟨d, rfl, hp, h.symm⟩)
    · simp [hp] at h

theorem intoOperand?_spec {printed : Bool} {depth : Nat}
    (h : intoOperand? printed depth k = some r) :
    r.isOperator = k.endsOperand ∧
      r.depth + (if k = .rightParen then 1 else 0) = depth + (if k = .leftParen then 1 else 0) ∧
      (r = .start ↔ k = .semicolon) ∧ r.printed = printed := by
  obtain ⟨v, hv, rfl⟩ | ⟨op, ho, rfl⟩ | ⟨rfl, rfl⟩ := intoOperand?_cases h
  · cases hv <;> simp [isOperator, Kind.endsOperand, Kind.literal?, Spot.depth, Spot.printed]
  · cases ho <;> simp [isOperator, Kind.endsOperand, Kind.literal?, Spot.depth, Spot.printed]
  · simp [isOperator, Kind.endsOperand, Kind.literal?, Spot.depth, Spot.printed]

/-- What a token does to the reading can be told from the token alone, but for the print word,
which must begin its statement. -/
theorem next?_spec (h : q.next? k = some r) :
    r.isOperator = k.endsOperand ∧
      r.depth + (if k = .rightParen then 1 else 0) = q.depth + (if k = .leftParen then 1 else 0) ∧
      (r = .start ↔ k = .semicolon) ∧
      (r ≠ .start → r.printed = if q = .start then decide (k = .keyword .printWord) else q.printed) := by
  cases q with
  | start =>
    by_cases hk : k = .keyword .printWord
    · rw [next?, if_pos hk] at h
      cases h
      simp [hk, isOperator, Kind.endsOperand, Kind.literal?, Spot.depth, Spot.printed]
    · rw [next?, if_neg hk] at h
      obtain ⟨ho, hd, hs, hp⟩ := intoOperand?_spec h
      exact ⟨ho, hd, hs, fun _ => by rw [hp, if_pos rfl, decide_eq_false hk]⟩
  | operand printed depth =>
    obtain ⟨ho, hd, hs, hp⟩ := intoOperand?_spec h
    exact ⟨ho, hd, hs, fun _ => hp⟩
  | operator printed depth =>
    obtain ⟨level, op, hj, rfl⟩ | ⟨d, rfl, rfl, rfl⟩ | ⟨rfl, rfl, rfl⟩ := afterOperand?_cases h
    · cases hj <;> simp [isOperator, Kind.endsOperand, Kind.literal?, Spot.depth, Spot.printed]
    · simp [isOperator, Kind.endsOperand, Kind.literal?, Spot.depth, Spot.printed]
    · simp [isOperator, Kind.endsOperand, Kind.literal?, Spot.depth]

/-- How far the reading has come can be seen from the tokens read. -/
structure Tells (q : Spot) (ts : List Token) : Prop where
  operator : afterOperand ts = q.isOperator
  depth : ts.countP (·.kind = .leftParen) = ts.countP (·.kind = .rightParen) + q.depth
  started : lastStatement ts = [] ↔ q = .start
  printed : printing ts = q.printed

theorem Tells.next {ts : List Token} {t : Token} (h : q.Tells ts) (hn : q.next? t.kind = some r) :
    r.Tells (ts ++ [t]) := by
  obtain ⟨ho, hd, hs, hp⟩ := next?_spec hn
  have hdepth := h.depth
  -- after a semicolon no statement is being read, and any other token goes on with the last one
  by_cases hk : t.kind = .semicolon
  · have hlast : lastStatement (ts ++ [t]) = [] :=
      List.rtakeWhile_concat_neg _ _ _ (by simp [hk])
    obtain rfl := hs.mpr hk
    refine ⟨by simp [afterOperand, ho], ?_, by simp [hlast], by simp [printing, hlast, Spot.printed]⟩
    simp [hk, Spot.depth] at hd
    simp [hk, hdepth, Spot.depth, ← hd]
  · have hlast : lastStatement (ts ++ [t]) = lastStatement ts ++ [t] :=
      List.rtakeWhile_concat_pos _ _ _ (by simp [hk])
    have hr : r ≠ .start := fun hr => hk (hs.mp hr)
    refine ⟨by simp [afterOperand, ho], ?_, by simp [hlast, hr], ?_⟩
    · simp only [List.countP_append, List.countP_singleton, decide_eq_true_eq]
      omega
    · rw [printing, hlast, hp hr]
      by_cases hq : q = .start
      · simp [h.started.mpr hq, hq]
      · have hne : lastStatement ts ≠ [] := fun hnil => hq (h.started.mp hnil)
        rw [if_neg hq, ← h.printed, printing, List.head?_append_of_ne_nil _ hne]

theorem tells_of_run? {ts : List Token} (h : start.run? ts = some q) : q.Tells ts := by
  induction ts using List.reverseRecOn generalizing q with
  | nil =>
    cases h
    exact ⟨rfl, rfl, by simp [lastStatement], rfl⟩
  | append_singleton ts t ih =>
    rw [run?_concat] at h
    obtain ⟨p, hp, hn⟩ := Option.bind_eq_some_iff.mp h
    exact (ih hp).next hn

theorem expectedAfter_of_run? {ts : List Token} (h : start.run? ts = some q) :
    expectedAfter ts = q.expected := by
  obtain ⟨ho, hd, -, hp⟩ := tells_of_run? h
  have hgroup : inGroup ts = decide (0 < q.depth) := by
    rw [inGroup, hd]
    exact decide_eq_decide.mpr (by omega)
  rw [expectedAfter, ho, hgroup, hp]
  match q with
  | start | operand _ _ => rfl
  | operator _ (_ + 1) => simp [isOperator, Spot.depth, expected]
  | operator true 0 => rfl
  | operator false 0 => rfl

end Spot

end ExprMachine
