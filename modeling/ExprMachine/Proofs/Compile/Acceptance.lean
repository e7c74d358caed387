import ExprMachine.Proofs.Compile.Turns

/-! When a text compiles, and what its chunk then holds. -/

namespace ExprMachine

namespace Reader

variable {s : Scan} {r r' : Reader} {count : Nat}

theorem Turned.errors (h : Turned s r r') : ∃ ds, r'.errors.toList = r.errors.toList ++ ds := by
  cases h with
  | read _ he => exact ⟨[], by rw [he, List.append_nil]⟩
  | mistaken _ _ _ he | full _ _ _ he => exact ⟨[_], by rw [he, Array.toList_push]⟩

theorem reach_errors (hr : Relation.ReflTransGen (Turned s) r r') :
    ∃ ds, r'.errors.toList = r.errors.toList ++ ds := by
  induction hr with
  | refl => exact ⟨[], (List.append_nil _).symm⟩
  | tail _ ht ih =>
    obtain ⟨ds, hds⟩ := ih
    obtain ⟨es, hes⟩ := ht.errors
    exact ⟨ds ++ es, by rw [hes, hds, List.append_assoc]⟩

/-- If the constants find room, the turns of the loop find the mistakes that parsing finds, and
write the code of the statements if there is no mistake. -/
theorem reach_statements (hr : Relation.ReflTransGen (Turned s) r r')
    (hroom : .tooManyConstants ∉ r'.errors) (hend : r'.index = s.tokens.length)
    (hc : s.tokens.length - r.index ≤ count) :
    ∃ ms ss, statements s.tokens.length count (s.tokens.drop r.index) = (ms, ss) ∧
      r'.errors.toList = r.errors.toList ++ ms.map (fun m => .parse (m.error s.finish)) ∧
      (ms = [] → r.chunk.addAll? (ss.flatMap Stmt.postorder) = some r'.chunk) := by
  induction hr using Relation.ReflTransGen.head_induction_on generalizing count with
  | refl =>
    rw [hend, List.drop_length, statements_nil]
    exact ⟨[], [], rfl, (List.append_nil _).symm, fun _ => rfl⟩
  | @head r q hturn hreach ih =>
    have hlt := hturn.moves.index_lt
    have hwithin := hturn.moves.within
    have hi : r.index < s.tokens.length := by omega
    have hdrop := Scan.drop_of_token (List.getElem?_eq_getElem hi)
    obtain ⟨count, rfl⟩ : ∃ n, count = n + 1 := ⟨count - 1, by omega⟩
    obtain ⟨ms, ss, hrest, herrors, hcode⟩ :=
      ih (show s.tokens.length - q.index ≤ count by omega)
    cases hturn with
    | @read st _ he hst hadd =>
      rw [hdrop] at hst ⊢
      rw [statements_of_ok hst, hrest]
      refine ⟨ms, st :: ss, rfl, by rw [herrors, he], fun hms => ?_⟩
      rw [List.flatMap_cons, Chunk.addAll?_append, hadd]
      exact hcode hms
    | @mistaken stop expected _ _ _ he hst hr =>
      rw [hdrop] at hst hr ⊢
      rw [statements_of_error hst, ← hr, hrest]
      refine ⟨_ :: ms, ss, rfl, ?_, fun hms => absurd hms (List.cons_ne_nil _ ms)⟩
      rw [herrors, he, Array.toList_push, List.append_assoc, List.map_cons, s.error_drop]
      rfl
    | full _ _ _ he =>
      obtain ⟨ds, hds⟩ := reach_errors hreach
      refine absurd ?_ hroom
      rw [← Array.mem_toList_iff, hds, he, Array.toList_push]
      simp

/-- The mistakes of the parse are all errors if the constants find room, and without a mistake
the code of the program is what is written. -/
theorem reach_parse (hr : Relation.ReflTransGen (Turned s) start r)
    (hend : r.index = s.tokens.length) (hroom : .tooManyConstants ∉ r.errors) :
    r.errors.toList = (parse s.tokens).1.map (fun m => .parse (m.error s.finish)) ∧
      ((parse s.tokens).1 = [] → Chunk.empty.addAll?
        (programCode (parse s.tokens).2 s.finish.line) =
          some (r.chunk.writeOp .halt s.finish.line)) := by
  obtain ⟨ms, ss, hparse, herrors, hcode⟩ :=
    reach_statements hr hroom hend (Nat.sub_le s.tokens.length _)
  have hp : parse s.tokens = (ms, ss) := hparse
  rw [hp]
  refine ⟨herrors, fun hms => ?_⟩
  have hadd : Chunk.empty.addAll? (ss.flatMap Stmt.postorder) = some r.chunk := hcode hms
  rw [programCode, Chunk.addAll?_append, hadd]
  rfl

/-- A chunk that holds literals of the tokens only is not too full. -/
theorem Turned.has_room (h : Turned s r r') (hs : Sound s r)
    (hl : distinctLiterals s.tokens ≤ Chunk.lastIndex + 1) (hr : .tooManyConstants ∉ r.errors) :
    .tooManyConstants ∉ r'.errors := by
  cases h with
  | read _ he => rwa [he]
  | mistaken _ _ _ he =>
    rw [he, Array.mem_push]
    exact fun hd => hd.elim hr nofun
  | @full q _ hf =>
    have hsize := (hf.goes.pool hs.pool).size_le
    have hle := s.length_literals_le q.index
    have hfull := hf.full
    omega

theorem reach_room (hs : Sound s r) (hl : distinctLiterals s.tokens ≤ Chunk.lastIndex + 1)
    (hr : .tooManyConstants ∉ r.errors) (h : Relation.ReflTransGen (Turned s) r r') :
    .tooManyConstants ∉ r'.errors := by
  induction h with
  | refl => exact hr
  | tail hreach ht ih => exact ht.has_room (hs.reach hreach) hl ih

theorem start_room (hl : distinctLiterals s.tokens ≤ Chunk.lastIndex + 1)
    (h : Relation.ReflTransGen (Turned s) start r) : .tooManyConstants ∉ r.errors :=
  reach_room (sound_start s) hl (Array.not_mem_empty _) h

end Reader

/-- One pass accepts what a parse accepts, and writes the code of what is parsed. -/
theorem compile_eq_ok_iff {source : String} {tokens : Scan} {c : Chunk}
    (hs : scan source = .ok tokens) :
    compile source = .ok c ↔ ∃ ss, parse tokens.tokens = ([], ss) ∧
      Chunk.empty.addAll? (programCode ss tokens.finish.line) = some c := by
  obtain ⟨r, hreach, hend, hcompile⟩ := exists_turns hs
  constructor
  · intro hc
    have hnone : r.errors = #[] := by
      by_contra hne
      rw [hcompile, if_neg hne] at hc
      cases hc
    obtain ⟨herrors, hcode⟩ := Reader.reach_parse hreach hend (by simp [hnone])
    have hms : (parse tokens.tokens).1 = [] := by simpa [hnone] using herrors
    refine ⟨_, Prod.ext hms rfl, ?_⟩
    rw [hcompile, if_pos hnone] at hc
    rw [hcode hms, Except.ok.inj hc]
  · rintro ⟨ss, hp, ha⟩
    obtain ⟨hd, -⟩ := parse_eq_iff.mp hp
    have hl := (exists_programCode_iff hd tokens.finish.line).mp ⟨c, ha⟩
    obtain ⟨herrors, hcode⟩ := Reader.reach_parse hreach hend (Reader.start_room hl hreach)
    rw [hp] at herrors hcode
    rw [hcompile, if_pos (Array.toList_eq_nil_iff.mp herrors)]
    exact congrArg Except.ok (Option.some.inj ((hcode rfl).symm.trans ha))

/-- The errors are the mistakes of the parse if the constants find room. -/
theorem compile_of_mistakes {source : String} {s : Scan} (hs : scan source = .ok s)
    (hl : distinctLiterals s.tokens ≤ Chunk.lastIndex + 1) (hm : (parse s.tokens).1 ≠ []) :
    compile source = .error ((parse s.tokens).1.map fun m => .parse (m.error s.finish)) := by
  obtain ⟨r, hreach, hend, hcompile⟩ := exists_turns hs
  obtain ⟨herrors, -⟩ := Reader.reach_parse hreach hend (Reader.start_room hl hreach)
  have hne : r.errors ≠ #[] := by
    rintro hnone
    rw [hnone] at herrors
    exact hm (List.map_eq_nil_iff.mp herrors.symm)
  rw [hcompile, if_neg hne, herrors]

/-- All that a text which does not compile is refused for. -/
theorem compile_error_cases {source : String} {es : List CompileError}
    (h : compile source = .error es) :
    (∃ e, scan source = .error e ∧ es = [.lexical e]) ∨
    ∃ s r, scan source = .ok s ∧ Relation.ReflTransGen (Reader.Turned s) .start r ∧
      r.index = s.tokens.length ∧ r.errors ≠ #[] ∧ es = r.errors.toList := by
  cases hs : scan source with
  | error e =>
    simp only [compile, hs] at h
    exact .inl ⟨e, rfl, (Except.error.inj h).symm⟩
  | ok s =>
    obtain ⟨r, hreach, hend, hcompile⟩ := exists_turns hs
    rw [hcompile] at h
    split at h
    · cases h
    · next hne => exact .inr ⟨s, r, rfl, hreach, hend, hne, (Except.error.inj h).symm⟩

theorem compile_spec {source : String} {c : Chunk} (h : compile source = .ok c) :
    ∃ tokens ss, scan source = .ok tokens ∧ DerivesProgram tokens.tokens ss ∧
      (∀ s ∈ ss, s.value.nesting ≤ nestingLimit) ∧ c.Aligned ∧
      Decodes c 0 (programCode ss tokens.finish.line) := by
  cases hs : scan source with
  | error e => simp [compile, hs] at h
  | ok tokens =>
    obtain ⟨ss, hp, ha⟩ := (compile_eq_ok_iff hs).mp h
    obtain ⟨hd, hn⟩ := parse_eq_iff.mp hp
    obtain ⟨-, hal, hdec⟩ :=
      Chunk.addAll?_spec Chunk.aligned_empty (fun _ => programCode_plain) ha
    exact ⟨tokens, ss, rfl, hd, hn, hal, hdec⟩

theorem compile_of_derives {source : String} {tokens : Scan} {ss : List Stmt}
    (hs : scan source = .ok tokens) (hl : distinctLiterals tokens.tokens ≤ Chunk.lastIndex + 1)
    (hd : DerivesProgram tokens.tokens ss) (hn : ∀ s ∈ ss, s.value.nesting ≤ nestingLimit) :
    ∃ c, compile source = .ok c := by
  obtain ⟨c, hc⟩ := (exists_programCode_iff hd tokens.finish.line).mpr hl
  exact ⟨c, (compile_eq_ok_iff hs).mpr ⟨ss, parse_eq_iff.mpr ⟨hd, hn⟩, hc⟩⟩

/-- A binary operator with what stands to its right. -/
structure Link where
  op : BinaryOp
  line : Nat
  operand : Expr

def Expr.chain (first : Expr) (links : List Link) : Expr :=
  links.foldl (fun left link => .binary link.op link.line left link.operand) first

theorem Expr.nesting_chain {first : Expr} {links : List Link} {n : Nat}
    (hf : first.nesting ≤ n) (hl : ∀ link ∈ links, link.operand.nesting < n) :
    (chain first links).nesting ≤ n := by
  induction links generalizing first with
  | nil => exact hf
  | cons link links ih =>
    have hlink := hl link (by simp)
    have hn : (Expr.binary link.op link.line first link.operand).nesting ≤ n := by
      simp only [nesting]
      omega
    exact ih hn fun l h => hl l (by simp [h])

/-- A text that scans compiles exactly if its tokens are a program whose expressions nest at
most 512 levels. Its code is then read back as the post-order of its only tree. Chains of
operators that group to the left can be of any length. -/
theorem compile_iff_derives (source : String) (tokens : Scan) (hs : scan source = .ok tokens)
    (hl : distinctLiterals tokens.tokens ≤ 16777216) :
    ((∃ c, compile source = .ok c) ↔
      ∃ ss, DerivesProgram tokens.tokens ss ∧ ∀ s ∈ ss, s.value.nesting ≤ 512) ∧
    (∀ c, compile source = .ok c → ∃ ss, DerivesProgram tokens.tokens ss ∧
      (∀ ss', DerivesProgram tokens.tokens ss' → ss' = ss) ∧
      ∀ es, Decodes c 0 es ↔ es = programCode ss tokens.finish.line) ∧
    (∀ ss, DerivesProgram tokens.tokens ss →
      (∀ s ∈ ss, ∃ first links, s.value = .chain first links ∧ first.nesting ≤ 512 ∧
        ∀ link ∈ links, link.operand.nesting ≤ 511) →
      ∃ c, compile source = .ok c) := by
  refine ⟨⟨?_, ?_⟩, ?_, ?_⟩
  · rintro ⟨c, hc⟩
    obtain ⟨tokens', ss, hs', hd, hn, -⟩ := compile_spec hc
    cases hs.symm.trans hs'
    exact ⟨ss, hd, hn⟩
  · rintro ⟨ss, hd, hn⟩
    exact compile_of_derives hs hl hd hn
  · intro c hc
    obtain ⟨tokens', ss, hs', hd, -, -, hdec⟩ := compile_spec hc
    cases hs.symm.trans hs'
    refine ⟨ss, hd, fun ss' hd' => hd'.unique hd, fun es => ⟨fun h => h.unique hdec, ?_⟩⟩
    rintro rfl
    exact hdec
  · intro ss hd hch
    refine compile_of_derives hs hl hd fun s hs => ?_
    obtain ⟨first, links, he, hf, hlinks⟩ := hch s hs
    rw [he]
    exact Expr.nesting_chain hf fun link h => Nat.lt_succ_of_le (hlinks link h)

theorem exists_ok_of_toOption {ε α β : Type} {r : Except ε α} {f : α → β} {b : β}
    (h : r.toOption.map f = some b) : ∃ a, r = .ok a ∧ f a = b := by
  cases r with
  | error e => cases h
  | ok a => exact ⟨a, rfl, Option.some.inj h⟩

theorem compile_iff_derives_comparison : ∃ tokens c ss,
    scan "print 1 <= -(\"a\");" = .ok tokens ∧ distinctLiterals tokens.tokens ≤ 16777216 ∧
    compile "print 1 <= -(\"a\");" = .ok c ∧ DerivesProgram tokens.tokens ss ∧
    ∀ es, Decodes c 0 es ↔ es = programCode ss tokens.finish.line := by
  have hscan : ((scan "print 1 <= -(\"a\");").toOption.map fun tokens =>
      decide (distinctLiterals tokens.tokens ≤ 16777216)) = some true := by decide +kernel
  have hcompile : ((compile "print 1 <= -(\"a\");").toOption.map fun _ => true) = some true := by
    decide +kernel
  obtain ⟨tokens, hs, hl⟩ := exists_ok_of_toOption hscan
  obtain ⟨c, hc, -⟩ := exists_ok_of_toOption hcompile
  obtain ⟨-, hdec, -⟩ := compile_iff_derives _ tokens hs (of_decide_eq_true hl)
  obtain ⟨ss, hd, -, hes⟩ := hdec c hc
  exact ⟨tokens, c, ss, hs, of_decide_eq_true hl, hc, hd, hes⟩

end ExprMachine
