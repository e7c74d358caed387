import ExprMachine.Proofs.Syntax.Grammar
import ExprMachine.Syntax.Parse

/-! Parsing by operator strength finds the expressions of the grammar, and no others, as
far as they do not nest too deeply. -/

namespace ExprMachine

theorem BinaryOp.strength_pos (op : BinaryOp) : 0 < op.strength := by
  cases op <;> decide

namespace Level

/-- The operators of a level have its rank as their strength. -/
def rank : Level → Nat
  | equality => 1
  | comparison => 2
  | term => 3
  | factor => 4
  | unary => 5
  | primary => 6

/-- The level of the expressions whose operators have at least the given strength. -/
def ofStrength : Nat → Level
  | 0 => equality
  | 1 => equality
  | 2 => comparison
  | 3 => term
  | 4 => factor
  | _ => unary

theorem rank_injective {level other : Level} (h : level.rank = other.rank) : level = other := by
  cases level <;> cases other <;> first | rfl | cases h

theorem rank_tighter {level : Level} (h : level ≠ .primary) :
    level.tighter.rank = level.rank + 1 := by
  cases level <;> first | rfl | exact absurd rfl h

theorem rank_le_tighter (level : Level) : level.rank ≤ level.tighter.rank := by
  cases level <;> decide

theorem Joins.rank {level : Level} {k : Kind} {op : BinaryOp} (h : level.Joins k op) :
    level.rank = op.strength ∧ level.tighter.rank = op.strength + 1 := by
  cases h <;> exact ⟨rfl, rfl⟩

theorem Joins.binaryOp? {level : Level} {k : Kind} {op : BinaryOp} (h : level.Joins k op) :
    k.binaryOp? = some op := by
  cases h <;> rfl

theorem joins_of_binaryOp? {k : Kind} {op : BinaryOp} (h : k.binaryOp? = some op) :
    (ofStrength op.strength).Joins k op := by
  unfold Kind.binaryOp? at h
  split at h <;> cases h <;> constructor

theorem rank_ofStrength_le {a b : Nat} (hb : 0 < b) (h : a ≤ b) : (ofStrength a).rank ≤ b := by
  match a with
  | 0 => exact hb
  | 1 | 2 | 3 | 4 | 5 => exact h
  | n + 6 => exact Nat.le_trans (show (5 : Nat) ≤ n + 6 by omega) h

theorem tighter_ofStrength (op : BinaryOp) :
    (ofStrength op.strength).tighter = ofStrength (op.strength + 1) := by
  cases op <;> rfl

end Level

namespace Kind

theorem denotes_iff {k : Kind} {v : Literal} : k.Denotes v ↔ k.literal? = some v := by
  constructor
  · intro h
    cases h <;> rfl
  · intro h
    unfold literal? at h
    split at h <;> cases h <;> constructor

theorem negates_iff {k : Kind} {op : UnaryOp} : k.Negates op ↔ k.unaryOp? = some op := by
  constructor
  · intro h
    cases h <;> rfl
  · intro h
    unfold unaryOp? at h
    split at h <;> cases h <;> constructor

theorem Negates.literal? {k : Kind} {op : UnaryOp} (h : k.Negates op) : k.literal? = none := by
  cases h <;> rfl

end Kind

/-- What a level has from the next tighter one, it has from every tighter one. -/
theorem Level.of_tighter {P : Level → Prop} (hp : ∀ level : Level, P level.tighter → P level)
    {level loose : Level} (h : P level) (hl : loose.rank ≤ level.rank) : P loose := by
  induction hn : level.rank - loose.rank generalizing loose with
  | zero =>
    have he : loose = level := Level.rank_injective (by omega)
    exact he ▸ h
  | succ n ih =>
    have ht := Level.rank_tighter (show loose ≠ .primary by rintro rfl; cases level <;> cases hn)
    exact hp loose (ih (by omega) (by omega))

theorem Derives.loosen {level loose : Level} {ts : List Token} {e : Expr}
    (h : Derives level ts e) (hl : loose.rank ≤ level.rank) : Derives loose ts e :=
  Level.of_tighter (P := fun level => Derives level ts e) (fun _ => .tighter) h hl

def NoOperatorFrom (strength : Nat) (ts : List Token) : Prop :=
  ∀ t ∈ ts.head?, ∀ op, t.kind.binaryOp? = some op → op.strength < strength

theorem NoOperatorFrom.mono {a b : Nat} {ts : List Token} (h : NoOperatorFrom a ts)
    (hab : a ≤ b) : NoOperatorFrom b ts :=
  fun t ht op ho => Nat.lt_of_lt_of_le (h t ht op ho) hab

theorem noOperatorFrom_unary (ts : List Token) : NoOperatorFrom unaryStrength ts := by
  intro t _ op _
  cases op <;> decide

theorem noOperatorFrom_of_kind {k : Kind} (hk : k.binaryOp? = none) {t : Token}
    (ht : t.kind = k) (n : Nat) (rest : List Token) : NoOperatorFrom n (t :: rest) := by
  intro u hu op ho
  cases hu
  rw [ht, hk] at ho
  cases ho

/-! What one turn of the loop over operators does. -/

theorem operators_stop {parse : Nat → List Token → Parsed Expr} {strength : Nat}
    {ts : List Token} (h : NoOperatorFrom strength ts) (bound : Nat) (left : Expr) :
    operators parse strength bound left ts = .ok (left, ts) := by
  unfold operators
  split
  · next t rest =>
    split
    · next op ho =>
      have hlt := h t rfl op ho
      rw [if_neg (by omega)]
    · rfl
  · rfl

theorem operators_step {parse : Nat → List Token → Parsed Expr} {strength bound : Nat}
    {left right : Expr} {t : Token} {op : BinaryOp} {ts rest : List Token}
    (ho : t.kind.binaryOp? = some op) (hs : strength ≤ op.strength)
    (hp : parse (op.strength + 1) ts = .ok (right, rest)) :
    operators parse strength (bound + 1) left (t :: ts) =
      operators parse strength bound (.binary op t.place.line left right) rest := by
  rw [operators]
  simp only [ho, if_pos hs, hp]

/-- An expression of the grammar, with what follows it, is parsed at every strength that is
not above its level: it becomes the left operand of whatever operators follow. -/
theorem expression_extend {level : Level} {ts : List Token} {e : Expr}
    (h : Derives level ts e) {room strength bound : Nat} {rest : List Token}
    (hn : e.nesting ≤ room + 1) (hs : strength ≤ level.rank)
    (hr : NoOperatorFrom (level.rank + 1) rest) (hb : (ts ++ rest).length ≤ bound) :
    ∃ b, rest.length ≤ b ∧ expression bound (room + 1) strength (ts ++ rest) =
      operators (expression bound room) strength b e rest := by
  induction h generalizing room strength rest with
  | @literal t v hv =>
    refine ⟨bound, by simp at hb; omega, ?_⟩
    simp only [expression, List.cons_append, List.nil_append, operand, Kind.denotes_iff.mp hv]
  | @group opening closing ts e ho _ hc ih =>
    simp only [Expr.nesting] at hn
    have hpos := e.nesting_pos
    obtain ⟨room, rfl⟩ : ∃ r, room = r + 1 := ⟨room - 1, by omega⟩
    have hstop (n : Nat) : NoOperatorFrom n (closing :: rest) :=
      noOperatorFrom_of_kind rfl hc n rest
    obtain ⟨b, _, he⟩ := @ih room 0 (closing :: rest)
      (by omega) (Nat.zero_le _) (hstop _) (by simp at hb ⊢; omega)
    rw [operators_stop (hstop 0)] at he
    refine ⟨bound, by simp at hb; omega, ?_⟩
    rw [expression]
    simp only [List.cons_append, List.append_assoc, List.nil_append, operand, ho, Kind.literal?,
      Kind.unaryOp?, if_true, he, expect, hc]
  | @unary t op ts e ht _ ih =>
    simp only [Expr.nesting] at hn
    have hpos := e.nesting_pos
    obtain ⟨room, rfl⟩ : ∃ r, room = r + 1 := ⟨room - 1, by omega⟩
    obtain ⟨b, _, he⟩ := @ih room unaryStrength rest
      (by omega) (Nat.le_refl _) hr (by simp at hb ⊢; omega)
    rw [operators_stop (noOperatorFrom_unary rest)] at he
    refine ⟨bound, by simp at hb; omega, ?_⟩
    rw [expression]
    simp only [List.cons_append, operand, ht.literal?, Kind.negates_iff.mp ht, he]
  | @binary level t op ls rs l r hj _ _ ihl ihr =>
    simp only [Expr.nesting] at hn
    have hpos := r.nesting_pos
    have hrank := hj.rank
    have ho := hj.binaryOp?
    obtain ⟨room, rfl⟩ : ∃ n, room = n + 1 := ⟨room - 1, by omega⟩
    obtain ⟨b, hlen, hl⟩ := @ihl (room + 1) strength (t :: (rs ++ rest)) (by omega) hs
      (by intro u hu op' ho'; cases hu; rw [ho] at ho'; cases ho'; omega)
      (by simpa using hb)
    obtain ⟨c, _, hright⟩ := @ihr room (op.strength + 1) rest
      (by omega) (by omega) (hr.mono (by omega)) (by simp at hb ⊢; omega)
    rw [operators_stop (hr.mono (by omega))] at hright
    obtain ⟨b, rfl⟩ : ∃ n, b = n + 1 := ⟨b - 1, by simp at hlen; omega⟩
    refine ⟨b, by simp at hlen; omega, ?_⟩
    rw [List.append_assoc, List.cons_append, hl, operators_step ho (by omega) hright]
  | @tighter level ts e _ ih =>
    have hrank := level.rank_le_tighter
    exact ih hn (by omega) (hr.mono (by omega)) hb

theorem expression_of_derives {level : Level} {ts : List Token} {e : Expr}
    (h : Derives level ts e) {room strength bound : Nat} {rest : List Token}
    (hn : e.nesting ≤ room) (hs : strength ≤ level.rank)
    (hr : NoOperatorFrom strength rest) (hb : (ts ++ rest).length ≤ bound) :
    expression bound room strength (ts ++ rest) = .ok (e, rest) := by
  have hpos := e.nesting_pos
  obtain ⟨room, rfl⟩ : ∃ n, room = n + 1 := ⟨room - 1, by omega⟩
  obtain ⟨b, _, he⟩ := expression_extend h hn hs (hr.mono (by omega)) hb
  rw [he, operators_stop hr]

/-- Whatever the parser of nested expressions accepts belongs to the grammar, nests at most
`room` levels and leaves no operator that it should have taken. -/
def Sound (room bound : Nat) (parse : Nat → List Token → Parsed Expr) : Prop :=
  ∀ strength ts e rest, strength ≤ unaryStrength → ts.length ≤ bound →
    parse strength ts = .ok (e, rest) →
    ∃ pre, ts = pre ++ rest ∧ Derives (.ofStrength strength) pre e ∧ e.nesting ≤ room ∧
      NoOperatorFrom strength rest

theorem operand_sound {room bound : Nat} {parse : Nat → List Token → Parsed Expr}
    (hp : Sound room bound parse) {ts rest : List Token} {e : Expr} (hb : ts.length ≤ bound)
    (h : operand parse ts = .ok (e, rest)) :
    ∃ pre, ts = pre ++ rest ∧ Derives .unary pre e ∧ e.nesting ≤ room + 1 := by
  unfold operand at h
  split at h
  · cases h
  next t us =>
  simp only [List.length_cons] at hb
  split at h
  · next v hv =>
    cases h
    exact ⟨[t], rfl, .tighter (.literal (Kind.denotes_iff.mpr hv)),
      by simp only [Expr.nesting]; omega⟩
  · next op hv ho =>
    split at h
    · next inner us' hi =>
      cases h
      obtain ⟨pre, rfl, hd, hn, _⟩ := hp _ _ _ _ (Nat.le_refl _) (by omega) hi
      exact ⟨t :: pre, rfl, .unary (Kind.negates_iff.mpr ho) hd,
        by simp only [Expr.nesting]; omega⟩
    · cases h
  · split at h
    · next ht =>
      split at h
      · next inner us' hi =>
        obtain ⟨pre, rfl, hd, hn, _⟩ := hp _ _ _ _ (Nat.zero_le _) (by omega) hi
        cases us' with
        | nil => cases h
        | cons closing us' =>
          simp only [expect] at h
          by_cases hc : closing.kind = .rightParen
          · simp only [hc, if_true] at h
            cases h
            exact ⟨t :: (pre ++ [closing]), by simp, .tighter (.group ht hd hc),
              by simp only [Expr.nesting]; omega⟩
          · simp only [hc, if_false] at h
            cases h
      · cases h
    · cases h

/-- The loop keeps that the tokens before it derive the left operand at some level from
which no stronger operator goes on. -/
theorem operators_sound {room bound : Nat} {parse : Nat → List Token → Parsed Expr}
    (hp : Sound room bound parse) {strength b : Nat} {level : Level} {pre ts rest : List Token}
    {left e : Expr} (hb : ts.length ≤ b) (hbb : b ≤ bound)
    (hl : Derives level pre left) (hn : left.nesting ≤ room + 1)
    (hle : (Level.ofStrength strength).rank ≤ level.rank)
    (hr : NoOperatorFrom (level.rank + 1) ts)
    (h : operators parse strength b left ts = .ok (e, rest)) :
    ∃ mid, ts = mid ++ rest ∧ Derives (.ofStrength strength) (pre ++ mid) e ∧
      e.nesting ≤ room + 1 ∧ NoOperatorFrom strength rest := by
  induction b generalizing level pre ts left with
  | zero =>
    have he : ts = [] := List.eq_nil_of_length_eq_zero (by omega)
    subst he
    cases h
    exact ⟨[], rfl, by simpa using hl.loosen hle, hn, by intro t ht; cases ht⟩
  | succ b ih =>
    cases ts with
    | nil =>
      cases h
      exact ⟨[], rfl, by simpa using hl.loosen hle, hn, by intro t ht; cases ht⟩
    | cons t us =>
      simp only [List.length_cons] at hb
      rw [operators] at h
      split at h
      · next op ho =>
        split at h
        · next hop =>
          split at h
          · next right us' hi =>
            have hos : op.strength + 1 ≤ unaryStrength := by cases op <;> decide
            obtain ⟨mid, rfl, hd, hnr, hrr⟩ := hp _ _ _ _ hos (by omega) hi
            have hj := Level.joins_of_binaryOp? ho
            have hlop : op.strength ≤ level.rank := Nat.le_of_lt_succ (hr t rfl op ho)
            have hd' := Derives.binary hj (hl.loosen (by rw [hj.rank.1]; exact hlop))
              (by rw [Level.tighter_ofStrength]; exact hd)
            obtain ⟨more, rfl, hde, hne, hre⟩ := ih (by simp at hb ⊢; omega) (by omega) hd'
              (by simp only [Expr.nesting]; omega)
              (by rw [hj.rank.1]; exact Level.rank_ofStrength_le op.strength_pos hop)
              (by rw [hj.rank.1]; exact hrr) h
            exact ⟨t :: (mid ++ more), by simp, by simpa using hde, hne, hre⟩
          · cases h
        · next hop =>
          cases h
          refine ⟨[], rfl, by simpa using hl.loosen hle, hn, ?_⟩
          intro u hu op' ho'
          cases hu
          rw [ho] at ho'
          cases ho'
          omega
      · next ho =>
        cases h
        exact ⟨[], rfl, by simpa using hl.loosen hle, hn, noOperatorFrom_of_kind ho rfl _ _⟩

theorem expression_sound (bound room : Nat) : Sound room bound (expression bound room) := by
  induction room with
  | zero =>
    intro strength ts e rest _ _ h
    cases h
  | succ room ih =>
    intro strength ts e rest hs hb h
    rw [expression] at h
    split at h
    · next left us ho =>
      obtain ⟨pre, rfl, hd, hn⟩ := operand_sound ih hb ho
      obtain ⟨mid, rfl, hde, hne, hre⟩ := operators_sound ih
        (by simp at hb; omega) (Nat.le_refl _) hd hn
        (Level.rank_ofStrength_le (Nat.succ_pos 4) hs) ((noOperatorFrom_unary us).mono (Nat.le_succ _)) h
      exact ⟨pre ++ mid, by simp, hde, hne, hre⟩
    · cases h

end ExprMachine
