import ExprMachine.Proofs.Syntax.Embedding
import ExprMachine.Proofs.Syntax.Prefixes

/-! Where parsing finds its first mistake, the tokens before it are an unfinished program, and
the token there is none that would go on with it. -/

namespace ExprMachine

/-- The tokens are the beginning of an expression of the level. An operand is missing after
them, or the parenthesis that closes a group. -/
inductive Unfinished : Level → List Token → Expected → Prop
  | operand (level : Level) : Unfinished level [] .operand
  | closing {opening : Token} {ts : List Token} {e : Expr} :
    opening.kind = .leftParen → Derives .equality ts e →
      Unfinished .primary (opening :: ts) .closingParen
  | group {opening : Token} {ts : List Token} {x : Expected} :
    opening.kind = .leftParen → Unfinished .equality ts x → Unfinished .primary (opening :: ts) x
  | unary {t : Token} {op : UnaryOp} {ts : List Token} {x : Expected} :
    t.kind.Negates op → Unfinished .unary ts x → Unfinished .unary (t :: ts) x
  | binary {level : Level} {t : Token} {op : BinaryOp} {ls rs : List Token} {l : Expr}
    {x : Expected} :
    level.Joins t.kind op → Derives level ls l → Unfinished level.tighter rs x →
      Unfinished level (ls ++ t :: rs) x
  | tighter {level : Level} {ts : List Token} {x : Expected} :
    Unfinished level.tighter ts x → Unfinished level ts x

def nilToken : Token := ⟨.keyword .nilWord, "nil", ⟨1, 0⟩⟩

def closingToken : Token := ⟨.rightParen, ")", ⟨1, 0⟩⟩

def semicolonToken : Token := ⟨.semicolon, ";", ⟨1, 0⟩⟩

namespace Unfinished

variable {level loose : Level} {ts : List Token} {x : Expected}

theorem loosen (h : Unfinished level ts x) (hl : loose.rank ≤ level.rank) :
    Unfinished loose ts x :=
  Level.of_tighter (P := fun level => Unfinished level ts x) (fun _ => .tighter) h hl

/-- Every unfinished expression can be finished, whatever is missing. -/
theorem completes (h : Unfinished level ts x) : ∃ more e, Derives level (ts ++ more) e := by
  induction h with
  | operand level =>
    have hnil : Derives .primary [nilToken] _ := .literal .nil
    exact ⟨[nilToken], _, hnil.loosen (by cases level <;> decide)⟩
  | closing ho hd => exact ⟨[closingToken], _, .group ho hd rfl⟩
  | group ho _ ih =>
    obtain ⟨more, e, hd⟩ := ih
    refine ⟨more ++ [closingToken], .group e, ?_⟩
    simpa using Derives.group ho hd (show closingToken.kind = .rightParen from rfl)
  | unary ht _ ih =>
    obtain ⟨more, e, hd⟩ := ih
    exact ⟨more, _, .unary ht hd⟩
  | @binary level t op ls rs l x hj hl _ ih =>
    obtain ⟨more, e, hd⟩ := ih
    refine ⟨more, .binary op t.place.line l e, ?_⟩
    simpa using Derives.binary hj hl hd
  | tighter _ ih =>
    obtain ⟨more, e, hd⟩ := ih
    exact ⟨more, e, .tighter hd⟩

/-- Reading it ends where it is told what is missing. -/
theorem exists_run? (h : Unfinished level ts x) (printed : Bool) (depth : Nat) :
    ∃ q, (Spot.operand printed depth).run? ts = some q ∧ q.expected = x ∧ q ≠ .start := by
  induction h generalizing depth with
  | operand => exact ⟨.operand printed depth, rfl, rfl, nofun⟩
  | @closing opening ts e ho hd =>
    have hopen : Spot.intoOperand? printed depth .leftParen = some (.operand printed (depth + 1)) := rfl
    refine ⟨.operator printed (depth + 1), ?_, rfl, nofun⟩
    simp [Spot.run?, Spot.next?, ho, hopen, Spot.run?_of_derives hd]
  | @group opening ts x ho _ ih =>
    have hopen : Spot.intoOperand? printed depth .leftParen = some (.operand printed (depth + 1)) := rfl
    obtain ⟨q, hq, hx⟩ := ih (depth + 1)
    exact ⟨q, by simp [Spot.run?, Spot.next?, ho, hopen, hq], hx⟩
  | unary ht _ ih =>
    obtain ⟨q, hq, hx⟩ := ih depth
    exact ⟨q, by simp [Spot.run?, Spot.next?, Spot.intoOperand?_unary ht, hq], hx⟩
  | binary hj hl _ ih =>
    obtain ⟨q, hq, hx⟩ := ih depth
    refine ⟨q, ?_, hx⟩
    simp [Spot.run?_append, Spot.run?_of_derives hl, Spot.run?, Spot.next?,
      Spot.afterOperand?_joins hj, hq]
  | tighter _ ih => exact ih depth

end Unfinished

/-- The kinds that would go on where this was expected. -/
def Expected.admits : Expected → Kind → Bool
  | operand, k => k.beginsOperand
  | closingParen, k => k = .rightParen || k.binaryOp?.isSome
  | semicolonAfterValue, k | semicolonAfterExpression, k => k = .semicolon || k.binaryOp?.isSome
  | shallowerNesting, _ => false

/-- Nothing stands where the mistake is that was expected there. -/
def Mistake.Unmet (m : Mistake) : Prop := ∀ t ∈ m.rest.head?, m.expected.admits t.kind = false

theorem Spot.next?_eq_none {q : Spot} {k : Kind} (h : q.expected.admits k = false)
    (hs : q = .start → k ≠ .keyword .printWord) : q.next? k = none := by
  cases q with
  | start => rw [next?, if_neg (hs rfl), intoOperand?_eq_none h]
  | operand printed depth => exact intoOperand?_eq_none h
  | operator printed depth =>
    cases depth with
    | zero => cases printed <;> simp_all [expected, Expected.admits, next?, afterOperand?]
    | succ depth => simp_all [expected, Expected.admits, next?, afterOperand?]

theorem expect_error {kind : Kind} {expected : Expected} {ts : List Token} {m : Mistake}
    (h : expect kind expected ts = .error m) :
    m = ⟨expected, ts⟩ ∧ ∀ t ∈ ts.head?, t.kind ≠ kind := by
  cases ts with
  | nil =>
    cases h
    exact ⟨rfl, nofun⟩
  | cons t us =>
    by_cases ht : t.kind = kind
    · rw [expect, if_pos ht] at h
      cases h
    · rw [expect, if_neg ht] at h
      cases h
      exact ⟨rfl, by simpa using ht⟩

/-- No operator is so weak that it could not go on with a whole expression. -/
theorem NoOperatorFrom.binaryOp?_eq_none {ts : List Token} (h : NoOperatorFrom 0 ts) {t : Token}
    (ht : t ∈ ts.head?) : t.kind.binaryOp? = none := by
  by_contra ho
  obtain ⟨op, ho⟩ := Option.ne_none_iff_exists'.mp ho
  exact Nat.not_lt_zero _ (h t ht op ho)

theorem Parsed.andThen_error {r : Parsed Expr} {k : Expr → List Token → Parsed Expr} {m : Mistake}
    (h : r.andThen k = .error m) :
    r = .error m ∨ ∃ e rest, r = .ok (e, rest) ∧ k e rest = .error m := by
  cases r with
  | error m' => exact .inl h
  | ok result => exact .inr ⟨result.1, result.2, rfl, h⟩

theorem closeGroup_error {e : Expr} {ts : List Token} {m : Mistake}
    (h : closeGroup e ts = .error m) :
    m = ⟨.closingParen, ts⟩ ∧ ∀ t ∈ ts.head?, t.kind ≠ .rightParen := by
  rw [closeGroup] at h
  cases hx : expect .rightParen .closingParen ts with
  | ok => simp [hx] at h
  | error m' =>
    rw [hx] at h
    cases h
    exact expect_error hx

/-- Where a parser fails for want of a token, what it has read is an unfinished expression. -/
def Misses (bound : Nat) (parse : Nat → List Token → Parsed Expr) : Prop :=
  ∀ strength ts m, strength ≤ unaryStrength → ts.length ≤ bound →
    parse strength ts = .error m → m.expected ≠ .shallowerNesting →
    ∃ pre, ts = pre ++ m.rest ∧ Unfinished (.ofStrength strength) pre m.expected ∧ m.Unmet

section Expressions

variable {room bound : Nat} {parse : Nat → List Token → Parsed Expr} {m : Mistake}
  (hs : Sound room bound parse) (hp : Misses bound parse)
include hs hp

theorem operand_misses {ts : List Token} (hb : ts.length ≤ bound)
    (h : operand parse ts = .error m) (hm : m.expected ≠ .shallowerNesting) :
    ∃ pre, ts = pre ++ m.rest ∧ Unfinished .unary pre m.expected ∧ m.Unmet := by
  cases ts with
  | nil =>
    cases h
    exact ⟨[], rfl, .operand _, nofun⟩
  | cons t us =>
    have hb : us.length ≤ bound := Nat.le_of_succ_le hb
    by_cases hv : t.kind.literal? = none
    · by_cases ho : t.kind.unaryOp? = none
      · by_cases ht : t.kind = .leftParen
        · rw [operand_group hv ho ht] at h
          obtain hi | ⟨e, rest, hi, hc⟩ := Parsed.andThen_error h
          · obtain ⟨pre, hus, hu, hunmet⟩ := hp 0 us m (Nat.zero_le _) hb hi hm
            exact ⟨t :: pre, by simp [← hus], .tighter (.group ht hu), hunmet⟩
          · obtain ⟨pre, hus, hd, -, hno⟩ := hs 0 us e rest (Nat.zero_le _) hb hi
            obtain ⟨rfl, hne⟩ := closeGroup_error hc
            refine ⟨t :: pre, by simp [← hus], .tighter (.closing ht hd), fun u hu => ?_⟩
            simp [Expected.admits, hne u hu, hno.binaryOp?_eq_none hu]
        · rw [operand_stop hv ho ht] at h
          cases h
          exact ⟨[], rfl, .operand _, by simp [Mistake.Unmet, Expected.admits, Kind.beginsOperand, *]⟩
      · obtain ⟨op, ho⟩ := Option.ne_none_iff_exists'.mp ho
        simp only [operand, hv, ho] at h
        obtain hi | ⟨e, rest, -, hc⟩ := Parsed.andThen_error (r := parse unaryStrength us)
          (k := fun e rest => .ok (.unary op t.place.line e, rest)) h
        · obtain ⟨pre, hus, hu, hunmet⟩ := hp _ us m (Nat.le_refl _) hb hi hm
          exact ⟨t :: pre, by simp [← hus], .unary (Kind.negates_iff.mpr ho) hu, hunmet⟩
        · cases hc
    · obtain ⟨v, hv⟩ := Option.ne_none_iff_exists'.mp hv
      simp [operand, hv] at h

theorem operators_misses {strength b : Nat} {level : Level} {pre ts : List Token} {left : Expr}
    (hb : ts.length ≤ b) (hbb : b ≤ bound) (hl : Derives level pre left)
    (hle : (Level.ofStrength strength).rank ≤ level.rank)
    (hr : NoOperatorFrom (level.rank + 1) ts)
    (h : operators parse strength b left ts = .error m) (hm : m.expected ≠ .shallowerNesting) :
    ∃ mid, ts = mid ++ m.rest ∧ Unfinished (.ofStrength strength) (pre ++ mid) m.expected ∧
      m.Unmet := by
  induction b generalizing level pre ts left with
  | zero =>
    have hnil : ts = [] := List.eq_nil_of_length_eq_zero (by omega)
    rw [hnil, operators_nil] at h
    cases h
  | succ b ih =>
    cases ts with
    | nil =>
      rw [operators_nil] at h
      cases h
    | cons t us =>
      simp only [List.length_cons] at hb
      by_cases ho : t.kind.binaryOp? = none
      · simp [operators, ho] at h
      obtain ⟨op, ho⟩ := Option.ne_none_iff_exists'.mp ho
      by_cases hop : strength ≤ op.strength
      · have hos : op.strength + 1 ≤ unaryStrength := by cases op <;> decide
        have hj := Level.joins_of_binaryOp? ho
        have hlop : op.strength ≤ level.rank := Nat.le_of_lt_succ (hr t rfl op ho)
        have hleft := hl.loosen (show (Level.ofStrength op.strength).rank ≤ _ by rwa [hj.rank.1])
        have hloose : (Level.ofStrength strength).rank ≤ (Level.ofStrength op.strength).rank := by
          rw [hj.rank.1]
          exact Level.rank_ofStrength_le op.strength_pos hop
        simp only [operators, ho, if_pos hop] at h
        obtain hi | ⟨right, rest, hi, hmore⟩ := Parsed.andThen_error (r := parse (op.strength + 1) us)
          (k := fun right => operators parse strength b (.binary op t.place.line left right)) h
        · -- what has been read derives the left operand, so the operator leaves its right one open
          obtain ⟨mid, hus, hu, hunmet⟩ := hp _ us m hos (by omega) hi hm
          rw [← Level.tighter_ofStrength] at hu
          exact ⟨t :: mid, by simp [← hus], (Unfinished.binary hj hleft hu).loosen hloose, hunmet⟩
        · obtain ⟨mid, rfl, hd, -, hrr⟩ := hs _ us right rest hos (by omega) hi
          rw [← Level.tighter_ofStrength] at hd
          obtain ⟨more, rfl, hu, hunmet⟩ := ih (by simp at hb ⊢; omega) (by omega)
            (.binary hj hleft hd) hloose (by rwa [hj.rank.1]) hmore
          exact ⟨t :: (mid ++ more), by simp, by simpa using hu, hunmet⟩
      · simp [operators, ho, hop] at h

end Expressions

theorem expression_misses (bound room : Nat) : Misses bound (expression bound room) := by
  induction room with
  | zero =>
    intro strength ts m _ _ h hm
    cases h
    exact absurd rfl hm
  | succ room ih =>
    intro strength ts m hst hb h hm
    have hs := expression_sound bound room
    rw [expression] at h
    obtain ho | ⟨left, rest, ho, hmore⟩ := Parsed.andThen_error (r := operand (expression bound room) ts)
      (k := operators (expression bound room) strength bound) h
    · obtain ⟨pre, hts, hu, hunmet⟩ := operand_misses hs ih hb ho hm
      exact ⟨pre, hts, hu.loosen (Level.rank_ofStrength_le (Nat.succ_pos 4) hst), hunmet⟩
    · obtain ⟨pre, rfl, hd, -⟩ := operand_sound hs hb ho
      obtain ⟨mid, rfl, hu, hunmet⟩ := operators_misses hs ih (by simp at hb; omega)
        (Nat.le_refl _) hd (Level.rank_ofStrength_le (Nat.succ_pos 4) hst)
        ((noOperatorFrom_unary rest).mono (Nat.le_succ _)) hmore hm
      exact ⟨pre ++ mid, by simp, hu, hunmet⟩

/-! Statements and programs. -/

def Expected.semicolon (printed : Bool) : Expected :=
  if printed then .semicolonAfterValue else .semicolonAfterExpression

/-- The tokens are the beginning of an expression with its semicolon. -/
inductive UnfinishedBody (printed : Bool) (ts : List Token) : Expected → Prop
  | value {x : Expected} : Unfinished .equality ts x → UnfinishedBody printed ts x
  | semicolon {e : Expr} : Derives .equality ts e → UnfinishedBody printed ts (.semicolon printed)

inductive UnfinishedStmt : List Token → Expected → Prop
  | printed {word : Token} {ts : List Token} {x : Expected} :
    word.kind = .keyword .printWord → UnfinishedBody true ts x → UnfinishedStmt (word :: ts) x
  | dropped {ts : List Token} {x : Expected} : UnfinishedBody false ts x → UnfinishedStmt ts x

namespace UnfinishedBody

variable {printed : Bool} {ts : List Token} {x : Expected}

theorem completes (h : UnfinishedBody printed ts x) :
    ∃ more e, Derives .equality (ts ++ more) e := by
  cases h with
  | value hu => exact hu.completes
  | @semicolon e hd => exact ⟨[], e, by simpa using hd⟩

theorem exists_run? (h : UnfinishedBody printed ts x) :
    ∃ q, (Spot.operand printed 0).run? ts = some q ∧ q.expected = x ∧ q ≠ .start := by
  cases h with
  | value hu => exact hu.exists_run? printed 0
  | semicolon hd =>
    refine ⟨.operator printed 0, Spot.run?_of_derives hd printed 0, ?_, nofun⟩
    cases printed <;> rfl

end UnfinishedBody

namespace UnfinishedStmt

variable {ts : List Token} {x : Expected}

theorem completes (h : UnfinishedStmt ts x) : ∃ more s, DerivesStmt (ts ++ more) s := by
  have hend : semicolonToken.kind = .semicolon := rfl
  cases h with
  | printed hw hb =>
    obtain ⟨more, e, hd⟩ := hb.completes
    exact ⟨more ++ [semicolonToken], _, by simpa using DerivesStmt.printed hw hd hend⟩
  | dropped hb =>
    obtain ⟨more, e, hd⟩ := hb.completes
    exact ⟨more ++ [semicolonToken], _, by simpa using DerivesStmt.dropped hd hend⟩

theorem exists_run? (h : UnfinishedStmt ts x) :
    ∃ q, Spot.start.run? ts = some q ∧ q.expected = x ∧ (q = .start → ts = []) := by
  cases h with
  | printed hw hb =>
    obtain ⟨q, hq, hx, hne⟩ := hb.exists_run?
    exact ⟨q, by simp [Spot.run?, Spot.next?, hw, hq], hx, fun hs => absurd hs hne⟩
  | dropped hb =>
    obtain ⟨q, hq, hx, hne⟩ := hb.exists_run?
    by_cases hnil : ts = []
    · subst hnil
      cases hq
      exact ⟨.start, rfl, hx, fun _ => rfl⟩
    · exact ⟨q, Spot.run?_start hq hnil, hx, fun hs => absurd hs hne⟩

end UnfinishedStmt

theorem statementBody_misses {bound : Nat} {printed : Bool} {ts : List Token} {m : Mistake}
    (hb : ts.length ≤ bound) (h : statementBody bound printed ts = .error m)
    (hm : m.expected ≠ .shallowerNesting) :
    ∃ pre, ts = pre ++ m.rest ∧ UnfinishedBody printed pre m.expected ∧ m.Unmet := by
  unfold statementBody at h
  cases hi : expression bound nestingLimit 0 ts with
  | error m' =>
    simp only [hi, Except.error.injEq] at h
    obtain ⟨pre, hts, hu, hunmet⟩ := expression_misses bound _ 0 ts m' (Nat.zero_le _) hb hi (h ▸ hm)
    subst h
    exact ⟨pre, hts, .value hu, hunmet⟩
  | ok result =>
    obtain ⟨e, rest⟩ := result
    obtain ⟨pre, hts, hd, -, hno⟩ := expression_sound bound _ 0 ts e rest (Nat.zero_le _) hb hi
    simp only [hi] at h
    cases hx : expect .semicolon (.semicolon printed) rest with
    | ok =>
      rw [Expected.semicolon] at hx
      simp [hx] at h
    | error m' =>
      obtain ⟨rfl, hne⟩ := expect_error hx
      rw [Expected.semicolon] at hx
      simp only [hx, Except.error.injEq] at h
      subst h
      refine ⟨pre, hts, .semicolon hd, fun u hu => ?_⟩
      cases printed <;> simp [Expected.admits, hne u hu, hno.binaryOp?_eq_none hu]

theorem statement_misses {bound : Nat} {ts : List Token} {m : Mistake} (hb : ts.length ≤ bound)
    (h : statement bound ts = .error m) (hm : m.expected ≠ .shallowerNesting) :
    ∃ pre, ts = pre ++ m.rest ∧ UnfinishedStmt pre m.expected ∧ m.Unmet ∧
      (pre = [] → ∀ t ∈ m.rest.head?, t.kind ≠ .keyword .printWord) := by
  cases ts with
  | nil =>
    obtain ⟨pre, hts, hu, hunmet⟩ := statementBody_misses hb h hm
    have hrest := (List.append_eq_nil_iff.mp hts.symm).2
    exact ⟨pre, hts, .dropped hu, hunmet, fun _ => by simp [hrest]⟩
  | cons t us =>
    by_cases ht : t.kind = .keyword .printWord
    · rw [statement, if_pos ht] at h
      obtain ⟨pre, hts, hu, hunmet⟩ := statementBody_misses (Nat.le_of_succ_le hb) h hm
      exact ⟨t :: pre, by simp [← hts], .printed ht hu, hunmet, by simp⟩
    · rw [statement, if_neg ht] at h
      obtain ⟨pre, hts, hu, hunmet⟩ := statementBody_misses hb h hm
      refine ⟨pre, hts, .dropped hu, hunmet, ?_⟩
      rintro rfl
      simpa [← show t :: us = m.rest from hts] using ht

/-- Before the first mistake there are only statements of the grammar. -/
theorem statements_first {bound count : Nat} {ts : List Token} {m : Mistake} {ms : List Mistake}
    (hb : ts.length ≤ bound) (h : (statements bound count ts).1 = m :: ms) :
    ∃ done us ss, ts = done ++ us ∧ DerivesProgram done ss ∧ us ≠ [] ∧
      statement bound us = .error m := by
  induction count generalizing ts with
  | zero => cases ts <;> cases h
  | succ count ih =>
    cases ts with
    | nil => cases h
    | cons t us =>
      cases hst : statement bound (t :: us) with
      | error m' =>
        simp only [statements_of_error hst, List.cons.injEq] at h
        exact ⟨[], t :: us, [], rfl, .nil, List.cons_ne_nil t us, by rw [hst, h.1]⟩
      | ok result =>
        obtain ⟨s, rest⟩ := result
        rw [statements_of_ok hst] at h
        obtain ⟨pre, hts, -, hd, -⟩ := statement_sound hb hst
        have hlen := congrArg List.length hts
        simp only [List.length_append, List.length_cons] at hlen hb
        obtain ⟨done, us', ss, rfl, hp, hne, he⟩ := ih (by omega) h
        exact ⟨pre ++ done, us', s :: ss, by rw [hts, List.append_assoc], .cons hd hp, hne, he⟩

/-- The first mistake of a parse is where the tokens stop being the beginning of a program, and
it expects what has to come there. -/
theorem parse_breaksAt {ts : List Token} {m : Mistake} {ms : List Mistake}
    (h : (parse ts).1 = m :: ms) (hm : m.expected ≠ .shallowerNesting) :
    ∃ n, m.rest = ts.drop n ∧ BreaksAt ts n ∧ m.expected = expectedAfter (ts.take n) := by
  obtain ⟨done, us, ss, rfl, hdone, hne, hst⟩ := statements_first (Nat.le_refl _) h
  obtain ⟨pre, hus, hu, hunmet, hprint⟩ := statement_misses (by simp) hst hm
  obtain ⟨q, hq, hx, hstart⟩ := hu.exists_run?
  have hrun : Spot.start.run? (done ++ pre) = some q := by
    rw [Spot.run?_append, Spot.run?_of_derivesProgram hdone, Option.bind_some, hq]
  have hts : done ++ us = (done ++ pre) ++ m.rest := by rw [hus, List.append_assoc]
  rw [hts]
  refine ⟨(done ++ pre).length, (List.drop_left).symm, ⟨by simp, ?_, ?_⟩, ?_⟩
  · rw [List.take_left]
    obtain ⟨more, s, hs⟩ := hu.completes
    refine ⟨more, ss ++ [s], ?_⟩
    have hlast : DerivesProgram (pre ++ more ++ []) [s] := .cons hs .nil
    simpa using hdone.append hlast
  · cases hrest : m.rest with
    | nil =>
      rw [if_neg (by simp)]
      rintro ⟨ss', hd⟩
      have hend := Spot.run?_of_derivesProgram hd
      rw [List.append_nil, hrun] at hend
      have hpre := hstart (Option.some.inj hend)
      exact hne (by rw [hus, hpre, hrest]; rfl)
    | cons t rest =>
      rw [if_pos (by simp)]
      intro hv
      have ht : t ∈ m.rest.head? := by simp [hrest]
      have hnone : q.next? t.kind = none :=
        Spot.next?_eq_none (hx ▸ hunmet t ht) (fun hs => hprint (hstart hs) t ht)
      have htake : (done ++ pre ++ t :: rest).take ((done ++ pre).length + 1) =
          done ++ pre ++ [t] := by rw [List.take_length_add_append, List.take_one]; rfl
      rw [htake] at hv
      obtain ⟨r, hr⟩ := hv.exists_run?
      rw [Spot.run?_concat, hrun, Option.bind_some, hnone] at hr
      cases hr
  · rw [List.take_left, Spot.expectedAfter_of_run? hrun, hx]

end ExprMachine
