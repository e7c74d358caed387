import ExprMachine.Proofs.Compile.Acceptance

/-! The statements that fail, each with the token at which it does. The recovery stops on words of
a larger language too, and these are then reported again. -/

namespace ExprMachine

/-- Why a statement fails: something else was expected, or there is no room for a literal. -/
inductive Cause where
  | expected (x : Expected)
  | noRoom

/-- A statement that begins at one token fails at another, or behind a literal. -/
structure Failure where
  start : Nat
  stop : Nat
  cause : Cause

namespace Failure

variable (s : Scan)

def report (f : Failure) : CompileError :=
  match f.cause with
  | .expected x => .parse (s.unexpected f.stop x)
  | .noRoom => .tooManyConstants

/-- Which token the diagnostic is about, or the end. That of a literal is about none. -/
def reported? (f : Failure) : Option Nat :=
  match f.cause with
  | .expected _ => some f.stop
  | .noRoom => none

/-- The parse of the statement fails there, or the literals up to there are more than a chunk can
hold. -/
def Explained (f : Failure) : Prop :=
  match f.cause with
  | .expected x => statement s.tokens.length (s.tokens.drop f.start) =
      .error ⟨x, s.tokens.drop f.stop⟩
  | .noRoom => ∃ i t k, f.stop = i + 1 ∧ f.start ≤ i ∧ s.tokens[i]? = some t ∧
      t.constant? = some k ∧ Chunk.lastIndex + 1 < distinctLiterals (s.tokens.take f.stop)

structure FailsIn (f : Failure) : Prop where
  start_lt : f.start < s.tokens.length
  le : f.start ≤ f.stop
  stop_le : f.stop ≤ s.tokens.length
  explained : f.Explained s

/-- What a failure keeps of the tokens for the later ones. -/
structure Before (f g : Failure) : Prop where
  start_lt : f.start < g.start
  stop_le : f.stop ≤ g.start
  begins : f.stop = g.start → ∃ t ∈ s.tokens[f.stop]?, t.kind.beginsStatement = true

/-- The failures of the statements from some token on. -/
structure Trace (start : Nat) (fs : List Failure) : Prop where
  fails : ∀ f ∈ fs, f.FailsIn s
  later : ∀ f ∈ fs, start ≤ f.start
  ordered : fs.Pairwise (Before s)
  foreign : ForeignAt s.tokens start → ∃ x, ⟨start, start, .expected x⟩ ∈ fs
  again : ∀ f ∈ fs, f.start < f.stop → ForeignAt s.tokens f.stop →
    ∃ x, ⟨f.stop, f.stop, .expected x⟩ ∈ fs

variable {s} {f g : Failure} {fs : List Failure} {start j n : Nat}

theorem Trace.nil (h : s.tokens.length ≤ start) : Trace s start [] where
  fails := by simp
  later := by simp
  ordered := .nil
  foreign := by simp [ForeignAt, List.getElem?_eq_none h]
  again := by simp

/-- A statement that is read does not begin with a foreign word. -/
theorem Trace.skip (h : Trace s j fs) (hj : start ≤ j) (hs : ¬ForeignAt s.tokens start) :
    Trace s start fs where
  fails := h.fails
  later g hg := Nat.le_trans hj (h.later g hg)
  ordered := h.ordered
  foreign hf := absurd hf hs
  again := h.again

theorem Trace.cons (h : Trace s j fs) (hf : f.FailsIn s) (hpos : f.start < j) (hstop : f.stop ≤ j)
    (hbegins : f.start < f.stop →
      (j = f.stop ↔ ∀ t ∈ s.tokens[f.stop]?, t.kind.beginsStatement = true))
    (hforeign : ForeignAt s.tokens f.start → f.stop = f.start ∧ ∃ x, f.cause = .expected x) :
    Trace s f.start (f :: fs) where
  fails := List.forall_mem_cons.mpr ⟨hf, h.fails⟩
  later := List.forall_mem_cons.mpr ⟨Nat.le_refl _, fun g hg =>
    Nat.le_trans (Nat.le_of_lt hpos) (h.later g hg)⟩
  ordered := by
    refine List.pairwise_cons.mpr ⟨fun g hg => ?_, h.ordered⟩
    have hlater := h.later g hg
    refine ⟨by omega, by omega, fun heq => ?_⟩
    have hlt : f.stop < s.tokens.length := heq ▸ (h.fails g hg).start_lt
    have hb := (hbegins (by omega)).mp (by omega)
    exact ⟨s.tokens[f.stop], by simp [hlt], hb _ (by simp [hlt])⟩
  foreign hs := by
    obtain ⟨start, stop, cause⟩ := f
    obtain ⟨rfl, x, rfl⟩ : stop = start ∧ ∃ x, cause = .expected x := hforeign hs
    exact ⟨x, List.mem_cons_self⟩
  again := by
    refine List.forall_mem_cons.mpr ⟨fun hlt hs => ?_, fun g hg hlt hs => ?_⟩
    · obtain rfl : j = f.stop := by
        refine (hbegins hlt).mpr fun t ht => ?_
        obtain ⟨u, hu, hk⟩ := hs
        obtain rfl : t = u := Option.mem_unique ht hu
        exact (Bool.and_eq_true_iff.mp hk).1
      obtain ⟨x, hx⟩ := h.foreign hs
      exact ⟨x, List.mem_cons_of_mem _ hx⟩
    · obtain ⟨x, hx⟩ := h.again g hg hlt hs
      exact ⟨x, List.mem_cons_of_mem _ hx⟩

end Failure

namespace Reader

variable {s : Scan} {r r' : Reader} {stop : Nat}

theorem not_passed_of_foreign {t : Token} (ht : s.tokens[r.index]? = some t)
    (h : ForeignAt s.tokens r.index) : t.passed = false := by
  obtain ⟨u, hu, hk⟩ := h
  obtain rfl : u = t := Option.some.inj (hu.symm.trans ht)
  exact Token.passed_eq_false hk

theorem index_of_drop {ts : List Token} {i j : Nat} (hi : i ≤ ts.length) (hj : j ≤ ts.length)
    (h : ts.drop i = ts.drop j) : i = j := by
  have hlen := congrArg List.length h
  rw [List.length_drop, List.length_drop] at hlen
  omega

theorem trace_read {st : Stmt} {fs : List Failure} (hm : Moves s r r')
    (hst : ExprMachine.statement s.tokens.length (s.tokens.drop r.index) =
      .ok (st, s.tokens.drop r'.index))
    (h : Failure.Trace s r'.index fs) : Failure.Trace s r.index fs := by
  have hwithin := hm.within
  have hlt := hm.index_lt
  have ht := List.getElem?_eq_getElem (show r.index < s.tokens.length by omega)
  refine h.skip (Nat.le_of_lt hlt) fun hf => ?_
  rw [Scan.drop_of_token ht, statement_of_not_passed _ (not_passed_of_foreign ht hf)] at hst
  cases hst

/-- A statement that is mistaken fails after `k` tokens, and the next one begins after `j`. -/
theorem trace_mistaken {x : Expected} {fs : List Failure} (hm : Moves s r r')
    (hle : r.index ≤ stop) (hstop : stop ≤ s.tokens.length)
    (hst : ExprMachine.statement s.tokens.length (s.tokens.drop r.index) =
      .error ⟨x, s.tokens.drop stop⟩)
    (hr : s.tokens.drop r'.index = recover (s.tokens.drop r.index) ⟨x, s.tokens.drop stop⟩)
    (h : Failure.Trace s r'.index fs) :
    Failure.Trace s r.index (⟨r.index, stop, .expected x⟩ :: fs) := by
  have hwithin := hm.within
  have hlt := hm.index_lt
  have hi : r.index < s.tokens.length := by omega
  have ht := List.getElem?_eq_getElem hi
  have hdrop := Scan.drop_of_token ht
  have hlen : (s.tokens.drop (r.index + 1)).length + 1 = s.tokens.length - r.index := by
    rw [List.length_drop]
    omega
  have hnext (k : Nat) : (s.tokens[r.index] :: s.tokens.drop (r.index + 1)).drop k =
      s.tokens.drop (r.index + k) := by
    rw [← hdrop, List.drop_drop]
  have hfail := hst
  rw [hdrop] at hst hr
  obtain ⟨k, hk, hrest, hp⟩ := exists_stop (by rw [List.length_cons]; omega) hst
  obtain ⟨j, hj, hrec, hpos, hkj, hbegins⟩ := recover_drop hk hrest hp
  have hk' : stop = r.index + k := index_of_drop hstop (by omega) (hrest.trans (hnext k))
  have hj' : r'.index = r.index + j :=
    index_of_drop hwithin (by omega) ((hr.trans hrec).trans (hnext j))
  have hf : Failure.FailsIn s ⟨r.index, stop, .expected x⟩ := ⟨hi, hle, hstop, hfail⟩
  refine h.cons hf hlt ?_ (fun hlt' => ?_) fun hforeign => ⟨?_, x, rfl⟩
  · show stop ≤ r'.index
    omega
  · have hpos : r.index < stop := hlt'
    have hbegins := hbegins (by omega)
    rw [List.head?_drop] at hbegins
    rw [← hbegins]
    show r'.index = stop ↔ _
    omega
  · have hk : ¬0 < k := by simp [hp, not_passed_of_foreign ht hforeign]
    show stop = r.index
    omega

theorem trace_full {q : Reader} {fs : List Failure} (hs : Sound s r) (hm : Moves s r r')
    (hfull : Full s r q) (hp : ∃ t ∈ s.tokens[r.index]?, t.passed = true)
    (hr : s.tokens.drop r'.index = resume (s.tokens.drop q.index))
    (h : Failure.Trace s r'.index fs) :
    Failure.Trace s r.index (⟨r.index, q.index, .noRoom⟩ :: fs) := by
  have hpassed := hfull.passed
  have hwithin := hfull.goes.within
  obtain ⟨k, hk, hrest, hbegins⟩ := resume_drop (s.tokens.drop q.index)
  rw [List.length_drop] at hk
  rw [List.drop_drop] at hrest
  have hk' : r'.index = q.index + k :=
    index_of_drop hm.within (by omega) (hr.trans hrest)
  have hliterals : Chunk.lastIndex + 1 < (s.literals q.index).length :=
    Nat.lt_of_lt_of_le hfull.full (hfull.goes.pool hs.pool).size_le
  obtain ⟨i, t, c, hi, ht, hc⟩ := hfull.literal
  have hle : r.index ≤ i := by omega
  have hlt : r.index < s.tokens.length := Nat.lt_of_lt_of_le hpassed hwithin
  have hf : Failure.FailsIn s ⟨r.index, q.index, .noRoom⟩ :=
    ⟨hlt, Nat.le_of_lt hpassed, hwithin, i, t, c, hi, hle, ht, hc, hliterals⟩
  refine h.cons hf hm.index_lt ?_ (fun _ => ?_) fun hforeign => ?_
  · show q.index ≤ r'.index
    omega
  · rw [List.head?_drop] at hbegins
    rw [← hbegins]
    show r'.index = q.index ↔ _
    omega
  · obtain ⟨u, hu, hp⟩ := hp
    rw [not_passed_of_foreign hu hforeign] at hp
    cases hp

/-- Each turn of the loop that fails is a failure of the trace. -/
theorem reach_trace (hs : Sound s r) (hr : Relation.ReflTransGen (Turned s) r r')
    (hend : r'.index = s.tokens.length) :
    ∃ fs : List Failure, r'.errors.toList = r.errors.toList ++ fs.map (Failure.report s) ∧
      Failure.Trace s r.index fs := by
  induction hr using Relation.ReflTransGen.head_induction_on with
  | refl => exact ⟨[], (List.append_nil _).symm, .nil (Nat.le_of_eq hend.symm)⟩
  | @head r q hturn _ ih =>
    obtain ⟨fs, herrors, htrace⟩ := ih (hs.turned hturn)
    cases hturn with
    | read hm he hst => exact ⟨fs, by rw [herrors, he], trace_read hm hst htrace⟩
    | mistaken hm hle hstop he hst hr =>
      refine ⟨_, ?_, trace_mistaken hm hle hstop hst hr htrace⟩
      rw [herrors, he, Array.toList_push, List.append_assoc]
      rfl
    | full hm hf hp he _ hr =>
      refine ⟨_, ?_, trace_full hs hm hf hp hr htrace⟩
      rw [herrors, he, Array.toList_push, List.append_assoc]
      rfl

end Reader

namespace Failure

variable {s : Scan} {f g : Failure} {fs : List Failure} {start n : Nat}

theorem stop_of_reported (h : f.reported? = some n) :
    f.stop = n ∧ ∃ x, f.cause = .expected x := by
  obtain ⟨start, stop, cause⟩ := f
  cases cause with
  | expected x => exact ⟨Option.some.inj h, x, rfl⟩
  | noRoom => cases h

/-- A statement that fails at its first token does not begin with it. -/
theorem FailsIn.not_passed (h : f.FailsIn s) (he : f.stop = f.start) {t : Token}
    (ht : s.tokens[f.start]? = some t) : t.passed = false := by
  obtain ⟨start, stop, cause⟩ := f
  obtain rfl : stop = start := he
  obtain ⟨hlt, -, -, hx⟩ := h
  cases cause with
  | noRoom =>
    obtain ⟨i, -, -, hi, hle, -⟩ := hx
    simp only at hi hle
    omega
  | expected x =>
    have hfail : statement s.tokens.length (s.tokens.drop stop) =
      .error ⟨x, s.tokens.drop stop⟩ := hx
    rw [Scan.drop_of_token ht] at hfail
    have hlen : (s.tokens.drop (stop + 1)).length + 1 ≤ s.tokens.length := by
      rw [List.length_drop]
      simp only at hlt
      omega
    obtain ⟨k, hk, hrest, hp⟩ := exists_stop hlen hfail
    have hkeep := congrArg List.length hrest
    simp only [List.length_drop, List.length_cons] at hkeep hk hlen
    have hzero : ¬0 < k := by omega
    exact Bool.eq_false_iff.mpr fun hpassed => hzero (hp.mpr hpassed)

/-- Two failures that end at one token: on a foreign word, where the second begins as well. -/
theorem Before.of_stop_eq (h : f.Before s g) (hg : g.FailsIn s) (he : g.stop = f.stop) :
    f.start < f.stop ∧ g.start = f.stop ∧ ForeignAt s.tokens f.stop := by
  have hle := hg.le
  have hstop := h.stop_le
  have hlt := h.start_lt
  have hstart : g.start = f.stop := by omega
  obtain ⟨t, ht, hb⟩ := h.begins hstart.symm
  have hp : t.passed = false := hg.not_passed (by omega) (hstart ▸ ht)
  have hprint : t.kind ≠ .keyword .printWord := by
    intro hk
    simp [Token.passed, hk] at hp
  exact ⟨by omega, hstart, t, ht, by simp [Kind.beginsForeign, hb, hprint]⟩

theorem Trace.starts (h : Trace s start fs) : (fs.map Failure.start).Pairwise (· < ·) :=
  List.pairwise_map.mpr (h.ordered.imp fun hb => hb.start_lt)

theorem Trace.stops (h : Trace s start fs) : (fs.map Failure.stop).Pairwise (· ≤ ·) := by
  refine List.pairwise_map.mpr (h.ordered.imp_of_mem fun _ hg hb => ?_)
  exact Nat.le_trans hb.stop_le (h.fails _ hg).le

/-- The failures that end at one token are two at most. -/
theorem length_le_two {l : List Failure} (hord : l.Pairwise (Before s))
    (hl : ∀ f ∈ l, f.FailsIn s ∧ f.stop = n)
    (hagain : ∀ f ∈ l, f.start < n → ForeignAt s.tokens n → ∃ g ∈ l, g.start = n) :
    l.length ≤ 2 ∧ (l.length = 2 ↔ ForeignAt s.tokens n ∧ ∃ f ∈ l, f.start < n) := by
  have htwice {f g : Failure} (hf : f ∈ l) (hg : g ∈ l) (hb : f.Before s g) :
      f.start < n ∧ g.start = n ∧ ForeignAt s.tokens n := by
    obtain ⟨-, rfl⟩ := hl f hf
    obtain ⟨hg, he⟩ := hl g hg
    exact hb.of_stop_eq hg he
  match l with
  | [] => simp
  | [f] =>
    have hone : ¬(ForeignAt s.tokens n ∧ ∃ g ∈ [f], g.start < n) := by
      rintro ⟨hs, g, hg, hlt⟩
      obtain ⟨k, hk, hstart⟩ := hagain g hg hlt hs
      rw [List.mem_singleton.mp hk, ← List.mem_singleton.mp hg] at hstart
      omega
    exact ⟨Nat.le_succ 1, by simp, fun h => absurd h hone⟩
  | [f, g] =>
    obtain ⟨hlt, -, hs⟩ := htwice (f := f) (g := g) (by simp) (by simp) (by simpa using hord)
    exact ⟨Nat.le_refl _, fun _ => ⟨hs, f, by simp, hlt⟩, fun _ => rfl⟩
  | f :: g :: k :: more =>
    -- with the first, the second begins at the token, and with the third it begins before it
    simp only [List.pairwise_cons, List.mem_cons] at hord
    obtain ⟨hf, hg, -⟩ := hord
    obtain ⟨-, hstart, -⟩ := htwice (f := f) (g := g) (by simp) (by simp) (hf g (by simp))
    obtain ⟨hlt, -⟩ := htwice (f := g) (g := k) (by simp) (by simp) (hg k (by simp))
    omega

/-- No token is reported more than twice, and twice only a foreign word on which the recovery
from an earlier mistake stops. -/
theorem Trace.count_le (h : Trace s start fs) (n : Nat) :
    (fs.filterMap reported?).count n ≤ 2 ∧
      ((fs.filterMap reported?).count n = 2 ↔
        ForeignAt s.tokens n ∧ ∃ f ∈ fs, f.start < n ∧ f.reported? = some n) := by
  have hcount : (fs.filterMap reported?).count n = (fs.filter (·.reported? == some n)).length := by
    rw [List.count_filterMap, List.countP_eq_length_filter]
  have hmem (f : Failure) : f ∈ fs.filter (·.reported? == some n) ↔
      f ∈ fs ∧ f.reported? = some n := by simp
  obtain ⟨hle, htwo⟩ := length_le_two (n := n) (h.ordered.filter (·.reported? == some n))
    (fun f hf => ⟨h.fails f ((hmem f).mp hf).1, (stop_of_reported ((hmem f).mp hf).2).1⟩)
    (fun f hf hlt hs => by
      obtain ⟨hfs, hf⟩ := (hmem f).mp hf
      obtain ⟨rfl, -⟩ := stop_of_reported hf
      obtain ⟨x, hx⟩ := h.again f hfs hlt hs
      exact ⟨_, (hmem _).mpr ⟨hx, rfl⟩, rfl⟩)
  rw [hcount]
  refine ⟨hle, htwo.trans (and_congr_right fun _ => exists_congr fun f => ?_)⟩
  rw [hmem, and_assoc, and_comm (a := f.reported? = some n)]

/-- The tokens that are told come in the order of the failures. -/
theorem Trace.reported (h : Trace s start fs) :
    (fs.filterMap reported?).Pairwise (· ≤ ·) := by
  refine List.pairwise_filterMap.mpr ((List.pairwise_map.mp h.stops).imp ?_)
  intro f g hle a ha b hb
  obtain ⟨rfl, -⟩ := stop_of_reported ha
  obtain ⟨rfl, -⟩ := stop_of_reported hb
  exact hle

end Failure

/-- Every diagnostic is about a statement that begins at one token and fails at another, or that
ends behind a literal for which there is no room. The statements begin at different tokens. Those
at which they fail come in their order, and none is told more than twice. A token is told twice if
it is a word of a larger language that is met where an earlier statement goes on: the recovery
stops there, and no statement begins with it. -/
theorem reported_tokens {source : String} {s : Scan} (hs : scan source = .ok s)
    {es : List CompileError} (h : compile source = .error es) :
    ∃ fs : List Failure, es = fs.map (Failure.report s) ∧
      (∀ f ∈ fs, f.FailsIn s) ∧ (fs.map Failure.start).Pairwise (· < ·) ∧
      (fs.map Failure.stop).Pairwise (· ≤ ·) ∧
      (∀ n, (fs.filterMap Failure.reported?).count n ≤ 2 ∧
        ((fs.filterMap Failure.reported?).count n = 2 ↔
          ForeignAt s.tokens n ∧ ∃ f ∈ fs, f.start < n ∧ f.reported? = some n)) ∧
      ((∀ t ∈ s.tokens, t.kind.beginsForeign = false) →
        (fs.filterMap Failure.reported?).Pairwise (· < ·)) := by
  obtain ⟨e, hscan, -⟩ | ⟨s', r, hscan, hreach, hend, -, rfl⟩ := compile_error_cases h
  · rw [hs] at hscan
    cases hscan
  rw [hs] at hscan
  cases hscan
  obtain ⟨fs, herrors, htrace⟩ := Reader.reach_trace (Reader.sound_start s) hreach hend
  refine ⟨fs, herrors, htrace.fails, htrace.starts, htrace.stops, htrace.count_le, fun hnone => ?_⟩
  -- what is told twice is a foreign word, and there is none
  have hnodup : (fs.filterMap Failure.reported?).Nodup := by
    refine List.nodup_iff_count_le_one.mpr fun n => ?_
    obtain ⟨hle, htwo⟩ := htrace.count_le n
    by_contra hlt
    obtain ⟨⟨t, ht, hk⟩, -⟩ := htwo.mp (by omega)
    rw [hnone t (List.mem_of_getElem? ht)] at hk
    cases hk
  refine (htrace.reported.and hnodup).imp fun hle => ?_
  exact Nat.lt_of_le_of_ne hle.1 hle.2

/-- Four diagnostics at three tokens. -/
theorem reported_tokens_print :
    let source := "print 1 2; print if (3; print;"
    ∃ s es, scan source = .ok s ∧ compile source = .error es ∧ es.length = 4 ∧
      ∃ fs : List Failure, es = fs.map (Failure.report s) ∧
        (fs.map Failure.start).Pairwise (· < ·) ∧ (fs.map Failure.stop).Pairwise (· ≤ ·) ∧
        ∀ n, (fs.filterMap Failure.reported?).count n ≤ 2 := by
  intro source
  let after : Token := ⟨.number 2, "2", ⟨1, 8⟩⟩
  let word : Token := ⟨.keyword .ifWord, "if", ⟨1, 18⟩⟩
  let last : Token := ⟨.semicolon, ";", ⟨1, 29⟩⟩
  have h : compile source = .error [.parse ⟨.semicolonAfterValue, some after, ⟨1, 8⟩⟩,
      .parse ⟨.operand, some word, ⟨1, 18⟩⟩, .parse ⟨.operand, some word, ⟨1, 18⟩⟩,
      .parse ⟨.operand, some last, ⟨1, 29⟩⟩] := by decide +kernel
  have hscan : ((scan source).toOption.map fun _ => true) = some true := by decide +kernel
  obtain ⟨s, hs, -⟩ := exists_ok_of_toOption hscan
  obtain ⟨fs, he, -, hstart, hstop, hcount, -⟩ := reported_tokens hs h
  exact ⟨s, _, hs, h, rfl, fs, he, hstart, hstop, fun n => (hcount n).1⟩

/-- The word is where the first statement fails, and fails as a statement of its own. -/
theorem same_token_twice :
    let source := "print var;"
    let found : Token := ⟨.keyword .varWord, "var", ⟨1, 8⟩⟩
    ∃ s, scan source = .ok s ∧ s.tokens[1]? = some found ∧
      compile source = .error [.parse ⟨.operand, some found, ⟨1, 8⟩⟩,
        .parse ⟨.operand, some found, ⟨1, 8⟩⟩] := by
  intro source found
  have hscan : ((scan source).toOption.map fun s => s.tokens[1]?) = some (some found) := by
    decide +kernel
  obtain ⟨s, hs, ht⟩ := exists_ok_of_toOption hscan
  exact ⟨s, hs, ht, by decide +kernel⟩

end ExprMachine
