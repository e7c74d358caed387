import ExprMachine.Compile.Reader
import ExprMachine.Proofs.Compile.Literals
import ExprMachine.Proofs.Syntax.Embedding
import ExprMachine.Proofs.Syntax.Relabelling

/-! What one pass reads is what the parse of the tokens finds, and what it writes is the code of
the tree, as long as the constants find room. It stays between the tokens. -/

namespace ExprMachine

/-- What is reported when something else was expected at this token. -/
def Scan.unexpected (s : Scan) (n : Nat) (expected : Expected) : ParseError :=
  ⟨expected, s.tokens[n]?, s.placeOf n⟩

theorem Scan.error_drop (s : Scan) (n : Nat) (expected : Expected) :
    Mistake.error s.finish ⟨expected, s.tokens.drop n⟩ = s.unexpected n expected := by
  have hhead := List.head?_drop (l := s.tokens) (i := n)
  cases hdrop : s.tokens.drop n with
  | nil =>
    have hnone : s.tokens[n]? = none := by simp [← hhead, hdrop]
    simp [Scan.unexpected, Mistake.error, placeOf, hnone]
  | cons t ts =>
    have hsome : s.tokens[n]? = some t := by simp [← hhead, hdrop]
    simp [Scan.unexpected, Mistake.error, placeOf, hsome]

namespace Scan

/-- What stands at an index up to the end of the program. -/
def item (s : Scan) (i : Nat) : Item := (s.tokens[i]?.map Item.token).getD (.finish s.finish)

variable {s : Scan} {i : Nat} {t : Token}

theorem item_of_token (h : s.tokens[i]? = some t) : s.item i = .token t := by
  rw [item, h]
  rfl

theorem item_of_no_token (h : s.tokens[i]? = none) : s.item i = .finish s.finish := by
  rw [item, h]
  rfl

@[simp] theorem token?_item (s : Scan) (i : Nat) : (s.item i).token? = s.tokens[i]? := by
  unfold item
  cases s.tokens[i]? <;> rfl

@[simp] theorem place_item (s : Scan) (i : Nat) : (s.item i).place = s.placeOf i := by
  unfold item placeOf
  cases s.tokens[i]? <;> rfl

theorem size_items (s : Scan) : s.items.size = s.tokens.length + 1 := by simp [items]

theorem items_getElem? (h : i ≤ s.tokens.length) : s.items[i]? = some (s.item i) := by
  rw [items, Array.getElem?_push, List.size_toArray, List.length_map]
  by_cases hi : i = s.tokens.length
  · rw [if_pos hi, item_of_no_token (by simp [hi])]
  · have hlt : i < s.tokens.length := by omega
    rw [if_neg hi, List.getElem?_toArray, List.getElem?_map, List.getElem?_eq_getElem hlt,
      item_of_token (List.getElem?_eq_getElem hlt), Option.map_some]

theorem lt_of_token (h : s.tokens[i]? = some t) : i < s.tokens.length :=
  (List.getElem?_eq_some_iff.mp h).1

theorem drop_of_token (h : s.tokens[i]? = some t) :
    s.tokens.drop i = t :: s.tokens.drop (i + 1) := by
  obtain ⟨hi, rfl⟩ := List.getElem?_eq_some_iff.mp h
  exact List.drop_eq_getElem_cons hi

theorem drop_of_no_token (h : s.tokens[i]? = none) : s.tokens.drop i = [] :=
  List.drop_eq_nil_of_le (List.getElem?_eq_none_iff.mp h)

/-- The literals among the tokens before an index. -/
def literals (s : Scan) (n : Nat) : List Constant :=
  ((s.tokens.take n).filterMap Token.constant?).dedup

theorem mem_literals (h : s.tokens[i]? = some t) {k : Constant} (hk : t.constant? = some k) :
    k ∈ s.literals (i + 1) := by
  refine List.mem_dedup.mpr (List.mem_filterMap.mpr ⟨t, ?_, hk⟩)
  rw [List.mem_iff_getElem?]
  exact ⟨i, by rw [List.getElem?_take, if_pos (Nat.lt_succ_self i), h]⟩

theorem literals_subset {m n : Nat} (h : m ≤ n) : s.literals m ⊆ s.literals n := by
  intro k hk
  obtain ⟨t, ht, hk⟩ := List.mem_filterMap.mp (List.mem_dedup.mp hk)
  have hsub : s.tokens.take m <+: s.tokens.take n := List.take_prefix_take_left h
  exact List.mem_dedup.mpr (List.mem_filterMap.mpr ⟨t, hsub.subset ht, hk⟩)

theorem length_literals_le (s : Scan) (n : Nat) :
    (s.literals n).length ≤ distinctLiterals s.tokens := by
  have hsub : s.literals n ⊆ (s.tokens.filterMap Token.constant?).dedup := by
    intro k hk
    obtain ⟨t, ht, hk⟩ := List.mem_filterMap.mp (List.mem_dedup.mp hk)
    exact List.mem_dedup.mpr (List.mem_filterMap.mpr ⟨t, List.mem_of_mem_take ht, hk⟩)
  exact ((List.nodup_dedup _).subperm hsub).length_le

end Scan

/-- The least strength of an operator that is read at this precedence. -/
def Precedence.strength (p : Precedence) : Nat := p.rank - 3

theorem Kind.rule_of_operator {k : Kind} {op : BinaryOp} (h : k.binaryOp? = some op) :
    k.rule.after = some .binary ∧ k.rule.precedence.rank = op.strength + 3 ∧
      k.rule.precedence.next.rank = op.strength + 4 := by
  unfold binaryOp? at h
  split at h <;> cases h <;> exact ⟨rfl, rfl, rfl⟩

theorem Kind.rule_of_no_operator {k : Kind} (h : k.binaryOp? = none) :
    k.rule.precedence = .none := by
  cases k with
  | minus | plus | slash | star | bangEqual | equalEqual | greater | greaterEqual | less
  | lessEqual => cases h
  | keyword word => cases word <;> rfl
  | _ => rfl

theorem Kind.rule_of_stop {k : Kind} (hv : k.literal? = none) (ho : k.unaryOp? = none)
    (hp : k ≠ .leftParen) : k.rule.first = none := by
  cases k with
  | leftParen => exact absurd rfl hp
  | minus | bang => cases ho
  | number | string => cases hv
  | keyword word =>
    cases word with
    | falseWord | trueWord | nilWord => cases hv
    | _ => rfl
  | _ => rfl

/-- The tokens that can be read in a form. -/
def Form.Takes (k : Kind) : Form → Prop
  | grouping => k = .leftParen
  | unary => k.unaryOp? ≠ none
  | binary => k.binaryOp? ≠ none
  | number => ∃ x, k = .number x
  | literal => k = .keyword .nilWord ∨ k = .keyword .trueWord ∨ k = .keyword .falseWord
  | text => ∃ x, k = .string x

theorem Kind.takes_of_rule {k : Kind} {form : Form}
    (h : k.rule.first = some form ∨ k.rule.after = some form) : form.Takes k := by
  obtain h | h := h
  · unfold rule at h
    split at h <;> cases h
    · exact rfl
    · exact Option.some_ne_none _
    · exact Option.some_ne_none _
    · exact ⟨_, rfl⟩
    · exact ⟨_, rfl⟩
    · exact .inr (.inr rfl)
    · exact .inr (.inl rfl)
    · exact .inl rfl
  · unfold rule at h
    split at h <;> cases h <;> exact Option.some_ne_none _

namespace Chunk

theorem PoolWithin.congr {c d : Chunk} {ks : List Constant} (h : c.PoolWithin ks)
    (hd : d.constants = c.constants) : d.PoolWithin ks where
  nodup := by rw [hd]; exact h.nodup
  subset := by rw [hd]; exact h.subset

theorem PoolWithin.mono {c : Chunk} {ks ks' : List Constant} (h : c.PoolWithin ks)
    (hks : ks ⊆ ks') : c.PoolWithin ks' :=
  ⟨h.nodup, List.Subset.trans h.subset hks⟩

theorem addAll?_append (c : Chunk) (es fs : List Emission) :
    c.addAll? (es ++ fs) = (c.addAll? es).bind (addAll? · fs) :=
  List.foldlM_append

end Chunk

namespace Reader

variable {s : Scan} {r r' : Reader} {t : Token} {α β : Type}

theorem bind_ok {a : Run α} {g : α → Run β} {x : α} (h : a.run r = .ok x r') :
    (a >>= g).run r = (g x).run r' := by
  rw [EStateM.run_bind, h]

@[simp] theorem moved_index (r : Reader) : r.moved.index = r.index + 1 := rfl

@[simp] theorem entered_index (r : Reader) : r.entered.index = r.index := rfl

@[simp] theorem noted_index (r : Reader) (d : CompileError) : (r.noted d).index = r.index := rfl

/-! Where each action looks. -/

theorem peek_run (h : r.index ≤ s.tokens.length) :
    (peek s.items).run r = .ok (s.item r.index) r := by
  simp only [EStateM.run, peek, Scan.items_getElem? h]

theorem previous_run {i : Nat} (hi : r.index = i + 1) (h : i ≤ s.tokens.length) :
    (previous s.items).run r = .ok (s.item i) r := by
  simp only [EStateM.run, previous, hi, Scan.items_getElem? h]

/-- After a token is passed, it is the previous one. -/
theorem previous_of_token (ht : s.tokens[r.index]? = some t) :
    (previous s.items).run r.moved = .ok (.token t) r.moved := by
  rw [previous_run r.moved_index (Nat.le_of_lt (Scan.lt_of_token ht)), Scan.item_of_token ht]

theorem atEnd_run (h : r.index ≤ s.tokens.length) :
    (atEnd s.items).run r = .ok s.tokens[r.index]?.isNone r := by
  rw [atEnd, bind_ok (peek_run h), EStateM.run_pure, Scan.token?_item]

theorem advance_run (ht : s.tokens[r.index]? = some t) :
    (advance s.items).run r = .ok (.token t) r.moved := by
  rw [advance, bind_ok (atEnd_run (Nat.le_of_lt (Scan.lt_of_token ht))), ht]
  exact previous_of_token ht

theorem check_run (h : r.index ≤ s.tokens.length) (kind : Kind) :
    (∃ t, s.tokens[r.index]? = some t ∧ t.kind = kind ∧
      (check s.items kind).run r = .ok true r) ∨
    (∀ t, s.tokens[r.index]? = some t → t.kind ≠ kind) ∧
      (check s.items kind).run r = .ok false r := by
  rw [check, bind_ok (atEnd_run h)]
  cases ht : s.tokens[r.index]? with
  | none => exact .inr ⟨nofun, rfl⟩
  | some t =>
    have hrun : (peek s.items >>= fun item => pure (item.token?.any (·.kind = kind))).run r =
        .ok (decide (t.kind = kind)) r := by
      rw [bind_ok (peek_run h), EStateM.run_pure, Scan.token?_item, ht, Option.any_some]
    by_cases hk : t.kind = kind
    · rw [decide_eq_true hk] at hrun
      exact .inl ⟨t, rfl, hk, hrun⟩
    · rw [decide_eq_false hk] at hrun
      exact .inr ⟨fun u hu => Option.some.inj hu ▸ hk, hrun⟩

theorem unexpected_run (h : r.index ≤ s.tokens.length) (expected : Expected) :
    (unexpected s.items expected).run r =
      .error (.diagnostic (.parse (s.unexpected r.index expected))) r := by
  rw [unexpected, bind_ok (peek_run h), Scan.token?_item, Scan.place_item]
  rfl

theorem passes_run (h : r.index ≤ s.tokens.length) (kind : Kind) :
    (∃ t, s.tokens[r.index]? = some t ∧ t.kind = kind ∧
      (passes s.items kind).run r = .ok true r.moved) ∨
    (∀ t, s.tokens[r.index]? = some t → t.kind ≠ kind) ∧
      (passes s.items kind).run r = .ok false r := by
  obtain ⟨t, ht, hk, hrun⟩ | ⟨hk, hrun⟩ := check_run h kind
  · refine .inl ⟨t, ht, hk, ?_⟩
    rw [passes, bind_ok hrun, if_pos rfl, bind_ok (advance_run ht), EStateM.run_pure]
  · refine .inr ⟨hk, ?_⟩
    rw [passes, bind_ok hrun]
    rfl

theorem consume_run (h : r.index ≤ s.tokens.length) (kind : Kind) (expected : Expected) :
    (∃ t, s.tokens[r.index]? = some t ∧
      expect kind expected (s.tokens.drop r.index) = .ok (t, s.tokens.drop r.moved.index) ∧
      (consume s.items kind expected).run r = .ok () r.moved) ∨
    expect kind expected (s.tokens.drop r.index) = .error ⟨expected, s.tokens.drop r.index⟩ ∧
      (consume s.items kind expected).run r =
        .error (.diagnostic (.parse (s.unexpected r.index expected))) r := by
  obtain ⟨t, ht, hk, hrun⟩ | ⟨hk, hrun⟩ := check_run h kind
  · refine .inl ⟨t, ht, ?_, ?_⟩
    · rw [Scan.drop_of_token ht, expect, if_pos hk, moved_index]
    · rw [consume, bind_ok hrun, if_pos rfl, bind_ok (advance_run ht), EStateM.run_pure]
  · refine .inr ⟨?_, ?_⟩
    · cases ht : s.tokens[r.index]? with
      | none => rw [Scan.drop_of_no_token ht, expect]
      | some t => rw [Scan.drop_of_token ht, expect, if_neg (hk t ht)]
    · rw [consume, bind_ok hrun]
      exact unexpected_run h expected

/-- What reading keeps, and how far it may go. The constants are literals that it has passed. -/
structure Goes (s : Scan) (r r' : Reader) : Prop where
  index_le : r.index ≤ r'.index
  within : r'.index ≤ s.tokens.length
  depth : r'.depth = r.depth
  deepest : r.deepest ≤ nestingLimit → r'.deepest ≤ nestingLimit
  errors : r'.errors = r.errors
  pool : r.chunk.PoolWithin (s.literals r.index) → r'.chunk.PoolWithin (s.literals r'.index)

namespace Goes

theorem refl (h : r.index ≤ s.tokens.length) : Goes s r r :=
  ⟨Nat.le_refl _, h, rfl, id, rfl, id⟩

theorem trans {r'' : Reader} (h : Goes s r r') (h' : Goes s r' r'') : Goes s r r'' where
  index_le := Nat.le_trans h.index_le h'.index_le
  within := h'.within
  depth := h'.depth.trans h.depth
  deepest hd := h'.deepest (h.deepest hd)
  errors := h'.errors.trans h.errors
  pool hp := h'.pool (h.pool hp)

theorem moved (ht : s.tokens[r.index]? = some t) : Goes s r r.moved :=
  ⟨Nat.le_succ _, Scan.lt_of_token ht, rfl, id, rfl,
    fun hp => hp.mono (Scan.literals_subset (Nat.le_succ _))⟩

theorem written (h : r.index ≤ s.tokens.length) {c : Chunk}
    (hc : r.chunk.PoolWithin (s.literals r.index) → c.PoolWithin (s.literals r.index)) :
    Goes s r { r with chunk := c } :=
  ⟨Nat.le_refl _, h, rfl, id, rfl, hc⟩

end Goes

/-- The reader has passed a literal for which there is no room in its chunk. -/
structure Full (s : Scan) (r r' : Reader) : Prop where
  goes : Goes s r r'
  passed : r.index < r'.index
  literal : ∃ i t k, r'.index = i + 1 ∧ s.tokens[i]? = some t ∧ t.constant? = some k
  full : Chunk.lastIndex + 1 < r'.chunk.constants.size

/-- An action that begins with `r` ends as a parse of the tokens does, or because a constant
finds no room. What is parsed stands to the chunk as `Q` says. -/
inductive Follows (s : Scan) (r : Reader) (p : Parsed α) (Q : α → Chunk → Prop) :
    EStateM.Result Obstacle Reader Unit → Prop
  | done {r' : Reader} {x : α} (hg : Goes s r r')
    (hp : p = .ok (x, s.tokens.drop r'.index)) (hq : Q x r'.chunk) : Follows s r p Q (.ok () r')
  | mistaken {r' : Reader} {expected : Expected} (hg : Goes s r r')
    (hp : p = .error ⟨expected, s.tokens.drop r'.index⟩) :
    Follows s r p Q (.error (.diagnostic (.parse (s.unexpected r'.index expected))) r')
  | full {r' : Reader} (hf : Full s r r') :
    Follows s r p Q (.error (.diagnostic .tooManyConstants) r')

section Following

variable {p : Parsed α} {q : Parsed β} {Q : α → Chunk → Prop} {Q' : β → Chunk → Prop}
  {result : EStateM.Result Obstacle Reader Unit} {depth : Nat} {nested : Precedence → Run Unit}

theorem Full.after {r'' : Reader} (hg : Goes s r r') (h : Full s r' r'') : Full s r r'' :=
  ⟨hg.trans h.goes, Nat.lt_of_le_of_lt hg.index_le h.passed, h.literal, h.full⟩

theorem Follows.after (hg : Goes s r r') (h : Follows s r' p Q result) :
    Follows s r p Q result := by
  cases h with
  | done hg' hp hq => exact .done (hg.trans hg') hp hq
  | mistaken hg' hp => exact .mistaken (hg.trans hg') hp
  | full hf => exact .full (hf.after hg)

theorem Follows.bind {a : Run Unit} {b : Unit → Run Unit} {begun : Reader}
    (ha : Follows s r p Q (a.run begun))
    (herror : ∀ m, p = .error m → q = .error m)
    (hok : ∀ r' x, Goes s r r' → p = .ok (x, s.tokens.drop r'.index) → Q x r'.chunk →
      Follows s r' q Q' ((b ()).run r')) :
    Follows s r q Q' ((a >>= b).run begun) := by
  rw [EStateM.run_bind]
  generalize a.run begun = result at ha
  cases ha with
  | done hg hp hq => exact (hok _ _ hg hp hq).after hg
  | mistaken hg hp => exact .mistaken hg (herror _ hp)
  | full hf => exact .full hf

theorem follows_unexpected (h : r.index ≤ s.tokens.length) {expected : Expected}
    (hp : p = .error ⟨expected, s.tokens.drop r.index⟩) :
    Follows s r p Q ((unexpected s.items expected).run r) := by
  rw [unexpected_run h]
  exact .mistaken (.refl h) hp

theorem emit_codes (codes : List Opcode) (line : Nat) (r : Reader) :
    ∃ c, (codes.forM fun code => emit code line).run r = .ok () { r with chunk := c } ∧
      r.chunk.addAll? (codes.map fun code => ⟨.op code, line⟩) = some c ∧
      c.constants = r.chunk.constants := by
  induction codes generalizing r with
  | nil => exact ⟨r.chunk, rfl, rfl, rfl⟩
  | cons code codes ih =>
    obtain ⟨c, hrun, hadd, hc⟩ := ih { r with chunk := r.chunk.writeOp code line }
    exact ⟨c, hrun, hadd, hc⟩

theorem follows_emit (h : r.index ≤ s.tokens.length) (code : Opcode) (line : Nat) {x : α}
    (hp : p = .ok (x, s.tokens.drop r.index)) (hq : Q x (r.chunk.writeOp code line)) :
    Follows s r p Q ((emit code line).run r) :=
  .done (.written h fun hc => hc.congr rfl) hp hq

/-- The chunk `d` is `c` with the code of the expression after it. -/
def Adds (c : Chunk) (e : Expr) (d : Chunk) : Prop := c.addAll? e.postorder = some d

/-- The constant is that of the token that was passed last. -/
theorem follows_emitConstant (ht : s.tokens[r.index]? = some t) {k : Constant}
    (hk : t.constant? = some k) {line : Nat} {e : Expr} (he : e.postorder = [⟨.load k, line⟩]) :
    Follows s r (.ok (e, s.tokens.drop r.moved.index)) (Adds r.chunk)
      ((emitConstant k line).run r.moved) := by
  obtain ⟨c, i, hi⟩ : ∃ c i, r.chunk.intern k = (c, i) := ⟨_, _, rfl⟩
  have hin : r.moved.index ≤ s.tokens.length := Scan.lt_of_token ht
  have hpool (hc : r.moved.chunk.PoolWithin (s.literals r.moved.index)) :
      c.PoolWithin (s.literals r.moved.index) := hc.intern (Scan.mem_literals ht hk) hi
  by_cases hle : i ≤ Chunk.lastIndex
  · let written := c.writeAll (Chunk.loadBytes i) line
    have hw : r.chunk.writeConstant k line = (written, some i) := by
      simp only [Chunk.writeConstant, hi, if_pos hle, written]
    have hadd : Adds r.chunk e written := by
      simp only [Adds, he, Chunk.addAll?, List.foldlM_cons, Chunk.add?, hw]
      rfl
    have hrun : (emitConstant k line).run r.moved = .ok () { r.moved with chunk := written } := by
      simp only [EStateM.run, emitConstant, moved, hw]
    rw [hrun]
    refine .done ((Goes.moved ht).trans (.written hin fun hc => ?_)) rfl hadd
    exact (hpool hc).congr (c.constants_writeAll (Chunk.loadBytes i) line)
  · have hw : r.chunk.writeConstant k line = (c, none) := by
      simp only [Chunk.writeConstant, hi, if_neg hle]
    obtain ⟨-, -, -, hfound⟩ := Chunk.intern_spec hi
    obtain ⟨hlt, -⟩ := Array.getElem?_eq_some_iff.mp hfound
    have hrun : (emitConstant k line).run r.moved =
        .error (.diagnostic .tooManyConstants) { r.moved with chunk := c } := by
      simp only [EStateM.run, emitConstant, moved, hw]
    rw [hrun]
    refine .full ⟨(Goes.moved ht).trans (.written hin hpool), Nat.lt_succ_self _,
      ⟨r.index, t, k, rfl, ht, hk⟩, ?_⟩
    show Chunk.lastIndex + 1 < c.constants.size
    omega

/-- Expressions at this depth are read as they are parsed. -/
def Nests (s : Scan) (depth : Nat) (nested : Precedence → Run Unit) : Prop :=
  ∀ (precedence : Precedence) (r : Reader), 0 < precedence.rank → r.index ≤ s.tokens.length →
    r.depth = depth →
    Follows s r (expression s.tokens.length (nestingLimit - depth) precedence.strength
      (s.tokens.drop r.index)) (Adds r.chunk) ((nested precedence).run r)

theorem follows_grouping (hn : Nests s depth nested) (ht : s.tokens[r.index]? = some t)
    (hd : r.depth = depth) :
    Follows s r ((expression s.tokens.length (nestingLimit - depth) 0
      (s.tokens.drop r.moved.index)).andThen closeGroup) (Adds r.chunk)
      ((grouping s.items nested).run r.moved) := by
  have hmoved := Goes.moved ht
  have hf : Follows s r.moved (expression s.tokens.length (nestingLimit - depth) 0
      (s.tokens.drop r.moved.index)) (Adds r.chunk) ((nested .assignment).run r.moved) :=
    hn .assignment r.moved Nat.one_pos hmoved.within hd
  refine (hf.bind (fun m hm => ?_) fun r' e hg he hadd => ?_).after hmoved
  · rw [hm, Parsed.andThen]
  · rw [he, Parsed.andThen]
    obtain ⟨t, ht, hx, hrun⟩ | ⟨hx, hrun⟩ := consume_run hg.within .rightParen .closingParen
    · rw [hrun, closeGroup, hx]
      exact .done (.moved ht) rfl hadd
    · rw [hrun, closeGroup, hx]
      exact .mistaken (.refl hg.within) rfl

theorem follows_unary (hn : Nests s depth nested) (ht : s.tokens[r.index]? = some t)
    {op : UnaryOp} (hop : t.kind.unaryOp? = some op) (hd : r.depth = depth) :
    Follows s r ((expression s.tokens.length (nestingLimit - depth) unaryStrength
      (s.tokens.drop r.moved.index)).andThen fun e rest => .ok (.unary op t.place.line e, rest))
      (Adds r.chunk) ((unary s.items nested).run r.moved) := by
  have hmoved := Goes.moved ht
  rw [unary, bind_ok (previous_of_token ht)]
  have hf : Follows s r.moved (expression s.tokens.length (nestingLimit - depth) unaryStrength
      (s.tokens.drop r.moved.index)) (Adds r.chunk) ((nested .unary).run r.moved) :=
    hn .unary r.moved (by decide) hmoved.within hd
  refine (hf.bind (fun m hm => ?_) fun r' e hg he hadd => ?_).after hmoved
  · rw [hm, Parsed.andThen]
  · rw [he, Parsed.andThen]
    simp only [Item.token?, Option.bind_some, hop]
    refine follows_emit hg.within op.opcode t.place.line rfl ?_
    rw [Adds, Expr.postorder_unary, Chunk.addAll?_append, hadd]
    rfl

theorem follows_binary (hn : Nests s depth nested) (ht : s.tokens[r.index]? = some t)
    {op : BinaryOp} (hop : t.kind.binaryOp? = some op) (hd : r.depth = depth) :
    Follows s r.moved (expression s.tokens.length (nestingLimit - depth) (op.strength + 1)
      (s.tokens.drop r.moved.index))
      (fun e c => r.chunk.addAll? (e.postorder ++ op.code t.place.line) = some c)
      ((binary s.items nested).run r.moved) := by
  obtain ⟨-, -, hnext⟩ := Kind.rule_of_operator hop
  have hstrength : t.kind.rule.precedence.next.strength = op.strength + 1 := by
    rw [Precedence.strength, hnext]
    rfl
  rw [binary, bind_ok (previous_of_token ht), ← hstrength]
  have hf : Follows s r.moved _ (Adds r.chunk) ((nested t.kind.rule.precedence.next).run r.moved) :=
    hn t.kind.rule.precedence.next r.moved (by omega) (Goes.moved ht).within hd
  refine hf.bind (fun m hm => hm) fun r' e hg he hadd => ?_
  simp only [Item.token?, Option.bind_some, hop]
  obtain ⟨c, hrun, hcodes, hc⟩ := emit_codes op.opcodes t.place.line r'
  show Follows s r' _ _ ((op.opcodes.forM fun code => emit code t.place.line).run r')
  rw [hrun]
  refine .done (.written hg.within fun hp => hp.congr hc) he ?_
  rw [Chunk.addAll?_append, hadd, op.code_eq]
  exact hcodes

theorem follows_literal (ht : s.tokens[r.index]? = some t) {v : Literal}
    (hv : t.kind.Denotes v) :
    ∃ form, t.kind.rule.first = some form ∧
      Follows s r (.ok (.literal v t.place.line, s.tokens.drop r.moved.index)) (Adds r.chunk)
        ((apply s.items nested form).run r.moved) := by
  have hprevious := previous_of_token ht
  have hmoved := Goes.moved ht
  obtain ⟨kind, text, place⟩ := t
  cases hv with
  | number x =>
    refine ⟨.number, rfl, ?_⟩
    rw [apply, number, bind_ok hprevious]
    exact follows_emitConstant ht rfl rfl
  | text x =>
    refine ⟨.text, rfl, ?_⟩
    rw [apply, Reader.text, bind_ok hprevious]
    exact follows_emitConstant ht rfl rfl
  | yes | no | nil =>
    refine ⟨.literal, rfl, ?_⟩
    rw [apply, literal, bind_ok hprevious]
    refine .after hmoved ?_
    exact follows_emit hmoved.within _ place.line rfl rfl

/-- The form in which a token begins an operand fits the token. -/
theorem follows_apply (hn : Nests s depth nested) (ht : s.tokens[r.index]? = some t)
    (hd : r.depth = depth) :
    (∃ form, t.kind.rule.first = some form ∧
      Follows s r (operand (expression s.tokens.length (nestingLimit - depth))
        (t :: s.tokens.drop r.moved.index)) (Adds r.chunk)
        ((apply s.items nested form).run r.moved)) ∨
    t.kind.rule.first = none ∧
      operand (expression s.tokens.length (nestingLimit - depth))
        (t :: s.tokens.drop r.moved.index) =
          .error ⟨.operand, t :: s.tokens.drop r.moved.index⟩ := by
  cases hv : t.kind.literal? with
  | some v =>
    obtain ⟨form, hform, hf⟩ := follows_literal ht (Kind.denotes_iff.mpr hv)
    refine .inl ⟨form, hform, ?_⟩
    simp only [operand, hv]
    exact hf
  | none =>
    cases ho : t.kind.unaryOp? with
    | some op =>
      have hform : t.kind.rule.first = some .unary := by
        generalize t.kind = kind at ho
        cases Kind.negates_iff.mpr ho <;> rfl
      refine .inl ⟨.unary, hform, ?_⟩
      simp only [operand, hv, ho]
      exact follows_unary hn ht ho hd
    | none =>
      by_cases hp : t.kind = .leftParen
      · refine .inl ⟨.grouping, by rw [hp]; rfl, ?_⟩
        rw [operand_group hv ho hp]
        exact follows_grouping hn ht hd
      · exact .inr ⟨Kind.rule_of_stop hv ho hp, operand_stop hv ho hp⟩

theorem follows_infixes (hn : Nests s depth nested) {precedence : Precedence}
    (hp : 0 < precedence.rank) {count bound : Nat} (h : r.index ≤ s.tokens.length)
    (hc : s.tokens.length - r.index < count) (hb : s.tokens.length - r.index ≤ bound)
    (hd : r.depth = depth) {left : Expr} {c : Chunk} (hl : Adds c left r.chunk) :
    Follows s r (operators (expression s.tokens.length (nestingLimit - depth))
      precedence.strength bound left (s.tokens.drop r.index)) (Adds c)
      ((infixes s.items nested precedence count).run r) := by
  -- an operator is read in each turn, so the tokens that are left bound the turns
  induction count generalizing r bound left with
  | zero => exact absurd hc (Nat.not_lt_zero _)
  | succ count ih =>
    rw [infixes, bind_ok (peek_run h)]
    cases ht : s.tokens[r.index]? with
    | none =>
      have hlow : ¬precedence.rank ≤ (Item.finish s.finish).rule.precedence.rank :=
        Nat.not_le_of_lt hp
      rw [Scan.item_of_no_token ht, if_neg hlow, Scan.drop_of_no_token ht, operators_nil]
      exact .done (.refl h) (by rw [Scan.drop_of_no_token ht]) hl
    | some t =>
      rw [Scan.item_of_token ht, Scan.drop_of_token ht]
      by_cases ho : ∃ op, t.kind.binaryOp? = some op ∧ precedence.strength ≤ op.strength
      · obtain ⟨op, hop, hs⟩ := ho
        obtain ⟨hafter, hrank, -⟩ := Kind.rule_of_operator hop
        have hle : precedence.rank ≤ (Item.token t).rule.precedence.rank := by
          show _ ≤ t.kind.rule.precedence.rank
          rw [Precedence.strength] at hs
          omega
        have hlt := Scan.lt_of_token ht
        obtain ⟨bound, rfl⟩ : ∃ n, bound = n + 1 := ⟨bound - 1, by omega⟩
        rw [if_pos hle, bind_ok (advance_run ht), bind_ok (previous_of_token ht)]
        simp only [Item.rule, hafter, apply]
        have hf := follows_binary hn ht hop hd
        refine (hf.bind (fun m hm => ?_) fun r' right hg hright hadd => ?_).after (.moved ht)
        · rw [moved_index] at hm
          rw [operators]
          simp only [hop, if_pos hs, hm]
        · have hindex : r.index + 1 ≤ r'.index := hg.index_le
          rw [moved_index] at hright
          rw [operators_step hop hs hright]
          refine ih hg.within (by omega) (by omega) (hg.depth.trans hd) ?_
          rw [Adds, Expr.postorder, List.append_assoc, Chunk.addAll?_append, hl]
          exact hadd
      · have hstop : NoOperatorFrom precedence.strength (t :: s.tokens.drop (r.index + 1)) := by
          rintro u ⟨⟩ op hop
          exact Nat.lt_of_not_le fun hs => ho ⟨op, hop, hs⟩
        have hlow : ¬precedence.rank ≤ (Item.token t).rule.precedence.rank := by
          show ¬_ ≤ t.kind.rule.precedence.rank
          cases hop : t.kind.binaryOp? with
          | none =>
            rw [Kind.rule_of_no_operator hop]
            exact Nat.not_le_of_lt hp
          | some op =>
            obtain ⟨-, hrank, -⟩ := Kind.rule_of_operator hop
            have hs := hstop t rfl op hop
            rw [Precedence.strength] at hs
            omega
        rw [if_neg hlow]
        exact .done (.refl h) (by rw [operators_stop hstop, Scan.drop_of_token ht]) hl

theorem follows_operandAndInfixes (hn : Nests s depth nested) {precedence : Precedence}
    (hp : 0 < precedence.rank) {bound : Nat} (hb : s.tokens.length < bound)
    (h : r.index ≤ s.tokens.length) (hd : r.depth = depth) :
    Follows s r (expression s.tokens.length (nestingLimit - depth + 1) precedence.strength
      (s.tokens.drop r.index)) (Adds r.chunk)
      ((operandAndInfixes s.items nested bound precedence).run r) := by
  rw [operandAndInfixes, bind_ok (peek_run h), expression]
  cases ht : s.tokens[r.index]? with
  | none =>
    rw [Scan.item_of_no_token ht, Scan.drop_of_no_token ht]
    exact follows_unexpected h (by rw [Scan.drop_of_no_token ht]; rfl)
  | some t =>
    rw [Scan.item_of_token ht, Scan.drop_of_token ht]
    have hf := follows_apply hn ht hd
    rw [moved_index] at hf
    obtain ⟨form, hform, hf⟩ | ⟨hform, hx⟩ := hf
    · simp only [Item.rule, hform]
      rw [bind_ok (advance_run ht)]
      refine hf.bind (fun m hm => ?_) fun r' left hg hleft hadd => ?_
      · rw [hm]
      · rw [hleft]
        exact follows_infixes hn hp hg.within (by omega) (Nat.sub_le _ _) (hg.depth.trans hd) hadd
    · simp only [Item.rule, hform]
      refine follows_unexpected h ?_
      rw [hx, Scan.drop_of_token ht]

theorem deeper_of_ok {a : Run Unit} {u : Unit} (h : a.run r.entered = .ok u r') :
    (deeper a).run r = .ok u r'.left := by
  simp only [EStateM.run] at h
  simp only [deeper, EStateM.run, h]

theorem deeper_of_error {a : Run Unit} {e : Obstacle} (h : a.run r.entered = .error e r') :
    (deeper a).run r = .error e r'.left := by
  simp only [EStateM.run] at h
  simp only [deeper, EStateM.run, h]

theorem Goes.left (h : r.depth < nestingLimit) (hg : Goes s r.entered r') : Goes s r r'.left where
  index_le := hg.index_le
  within := hg.within
  depth := Nat.sub_eq_of_eq_add hg.depth
  deepest hd := hg.deepest (Nat.max_le.mpr ⟨hd, h⟩)
  errors := hg.errors
  pool := hg.pool

theorem follows_deeper {a : Run Unit} (h : r.depth < nestingLimit)
    (ha : Follows s r.entered p Q (a.run r.entered)) : Follows s r p Q ((deeper a).run r) := by
  generalize hresult : a.run r.entered = result at ha
  cases ha with
  | done hg hp hq =>
    rw [deeper_of_ok hresult]
    exact .done (hg.left h) hp hq
  | mistaken hg hp =>
    rw [deeper_of_error hresult]
    exact .mistaken (hg.left h) hp
  | full hf =>
    rw [deeper_of_error hresult]
    exact .full ⟨hf.goes.left h, hf.passed, hf.literal, hf.full⟩

/-- The recursion ends at the nesting limit, and there are that many levels at most. -/
theorem nests_parsePrecedence {bound : Nat} (hb : s.tokens.length < bound) {levels : Nat}
    (hl : nestingLimit - depth < levels) :
    Nests s depth (parsePrecedence s.items bound levels) := by
  induction levels generalizing depth with
  | zero => exact absurd hl (Nat.not_lt_zero _)
  | succ levels ih =>
    intro precedence r hp h hd
    show Follows s r _ _ ((if nestingLimit ≤ r.depth then unexpected s.items .shallowerNesting else
      deeper (operandAndInfixes s.items (parsePrecedence s.items bound levels) bound
        precedence)).run r)
    by_cases hlimit : nestingLimit ≤ r.depth
    · rw [if_pos hlimit, ← hd, Nat.sub_eq_zero_of_le hlimit]
      exact follows_unexpected h rfl
    · have hroom : nestingLimit - depth = nestingLimit - (depth + 1) + 1 := by omega
      rw [if_neg hlimit, hroom]
      have hentered : r.entered.depth = depth + 1 := congrArg (· + 1) hd
      exact follows_deeper (Nat.lt_of_not_le hlimit)
        (follows_operandAndInfixes (ih (by omega)) hp hb (r := r.entered) h hentered)

theorem follows_statementBody {bound levels : Nat} (hb : s.tokens.length < bound)
    (hl : nestingLimit < levels) (h : r.index ≤ s.tokens.length) (hd : r.depth = 0)
    (printed : Bool) :
    Follows s r (ExprMachine.statementBody s.tokens.length printed (s.tokens.drop r.index))
      (fun st c => r.chunk.addAll? st.postorder = some c)
      ((statementBody s.items bound levels printed).run r) := by
  have hf : Follows s r (expression s.tokens.length nestingLimit 0 (s.tokens.drop r.index))
      (Adds r.chunk) ((parsePrecedence s.items bound levels .assignment).run r) :=
    nests_parsePrecedence hb hl .assignment r Nat.one_pos h hd
  refine hf.bind (fun m hm => ?_) fun r' e hg he hadd => ?_
  · rw [ExprMachine.statementBody, hm]
  rw [ExprMachine.statementBody, he]
  obtain ⟨t, ht, hx, hrun⟩ | ⟨hx, hrun⟩ := consume_run hg.within .semicolon
    (if printed then .semicolonAfterValue else .semicolonAfterExpression)
  · have hmoved := Goes.moved ht
    simp only [hx]
    rw [bind_ok hrun, bind_ok (previous_of_token ht)]
    refine (follows_emit hmoved.within _ t.place.line rfl ?_).after hmoved
    rw [Stmt.postorder, Chunk.addAll?_append, hadd]
    rfl
  · simp only [hx]
    rw [EStateM.run_bind, hrun]
    exact .mistaken (.refl hg.within) rfl

theorem follows_statement {bound levels : Nat} (hb : s.tokens.length < bound)
    (hl : nestingLimit < levels) (h : r.index ≤ s.tokens.length) (hd : r.depth = 0) :
    Follows s r (ExprMachine.statement s.tokens.length (s.tokens.drop r.index))
      (fun st c => r.chunk.addAll? st.postorder = some c)
      ((statement s.items bound levels).run r) := by
  rw [statement]
  obtain ⟨t, ht, hk, hrun⟩ | ⟨hk, hrun⟩ := passes_run h (.keyword .printWord)
  · rw [bind_ok hrun, Scan.drop_of_token ht, ExprMachine.statement, if_pos hk]
    have hg := Goes.moved ht
    exact (follows_statementBody hb hl hg.within hd true).after hg
  · have hbody : ExprMachine.statement s.tokens.length (s.tokens.drop r.index) =
        ExprMachine.statementBody s.tokens.length false (s.tokens.drop r.index) := by
      cases ht : s.tokens[r.index]? with
      | none => rw [Scan.drop_of_no_token ht, ExprMachine.statement]
      | some t => rw [Scan.drop_of_token ht, ExprMachine.statement, if_neg (hk t ht)]
    rw [bind_ok hrun, hbody]
    exact follows_statementBody hb hl h hd false

end Following

end Reader

end ExprMachine
