import ExprMachine.Proofs.Compile.Culprits
import ExprMachine.Proofs.Compile.InTurn
import ExprMachine.Proofs.Machine.Dispatches
import ExprMachine.Proofs.Source.Lines
import ExprMachine.Proofs.Token.Places

/-! Every diagnostic shows the line of the source that it is about. -/

namespace ExprMachine

theorem programCode_height (ss : List Stmt) (last : Nat) :
    heightAfter? (programCode ss last) 0 = some 0 := by
  induction ss with
  | nil => rfl
  | cons s ss ih => rw [programCode_cons, heightAfter?_append, s.heightAfter?_postorder, Option.bind, ih]

namespace Machine

variable {m₀ m n : Machine} {s : ContentMachine}

theorem Shows.noted (h : m₀.Shows m s) {f : Frame} (hn : m.note f = .ok n) : m₀.Shows n s := by
  have hnote := h.note f
  split at hnote
  · obtain ⟨n', hn', hs⟩ := hnote
    cases hn.symm.trans hn'
    exact hs
  · rw [hn] at hnote
    cases hnote

/-- An instruction that closes a statement does not fail if there is a value to take. -/
theorem Shows.not_closes_of_failed (h : m₀.Shows n s) {f : Frame} {i : Instruction} (hp : i.Plain)
    (ht : i.takes ≤ s.stack.length) {fault : Fault} {m' : Machine}
    (hf : n.perform f i = .failed fault m') : ¬i.Closes := by
  have hok (s' : ContentMachine) (hh : i ≠ .op .halt) : s.execute i ≠ .ok s' := by
    intro hx
    have hst := h.perform f hp hh
    rw [hx, hf] at hst
    obtain ⟨m'', hnext, -⟩ := hst
    cases hnext
  have htop (htakes : i.takes = 1) : ∃ v rest, s.stack = v :: rest :=
    List.exists_cons_of_length_pos (by omega)
  rintro (rfl | rfl | rfl)
  · obtain ⟨v, rest, hv⟩ := htop rfl
    refine hok { s with stack := rest } (by decide) ?_
    simp only [ContentMachine.execute, ContentMachine.withTop, hv]
  · obtain ⟨v, rest, hv⟩ := htop rfl
    refine hok { s with stack := rest, output := s.output ++ [v.toText] } (by decide) ?_
    simp only [ContentMachine.execute, ContentMachine.withTop, hv]
  · cases hf

/-- An instruction that goes on is not the last, and leaves the height that was found for it. -/
theorem Shows.next_of_perform (h : m₀.Shows n s) {f g : Frame} {i : Instruction} (hp : i.Plain)
    (ht : i.takes ≤ s.stack.length) {m' : Machine} (hn : n.perform f i = .next g m') :
    i ≠ .op .halt ∧ g = f ∧ ∃ s', m₀.Shows m' s' ∧
      s'.stack.length = s.stack.length - i.takes + i.gives := by
  have hh : i ≠ .op .halt := by
    rintro rfl
    cases hn
  have hst := h.perform f hp hh
  have hl := ContentMachine.leaves_execute hp hh ht
  cases hx : s.execute i with
  | error e =>
    rw [hx, hn] at hst
    obtain ⟨m'', hfail, -⟩ := hst
    cases hfail
  | ok s' =>
    rw [hx, hn] at hst
    rw [hx] at hl
    obtain ⟨m'', hnext, hs'⟩ := hst
    cases hnext
    exact ⟨hh, rfl, s', hs', hl.2⟩

/-- A run dispatches the instructions of the code one after the other. The last is on the line
it was emitted with, and does not close a statement if it fails. -/
theorem Dispatches.decoded {f : Frame} {es : List Emission} {height : Nat}
    {before : List (Frame × Machine)} {last : Frame × Machine} (h : Dispatches f m before last)
    (hs : m₀.Shows m s) (hd : Decodes f.chunk f.next es)
    (hh : heightAfter? es s.stack.length = some height)
    (hhalt : ∃ e ∈ es, e.instruction = .op .halt) :
    ∃ e, es[before.length]? = some e ∧ last.1.chunk = f.chunk ∧
      f.chunk.lines.byteLines[last.1.start]? = some e.line ∧
      (∃ g, last.1.readInstruction = (.ok e.instruction, g)) ∧
      ∀ fault m', last.2.dispatch last.1 = .failed fault m' → ¬e.instruction.Closes := by
  induction h generalizing s es with
  | @last f m n hm =>
    obtain ⟨chunk, offset, start⟩ := f
    dsimp only at hd
    cases hd with
    | done => simp at hhalt
    | @next _ after line i rest hi hlt hl hrest =>
      have ht : i.takes ≤ s.stack.length := by
        rw [heightAfter?] at hh
        split at hh
        · assumption
        · cases hh
      obtain ⟨-, -, -, -, hp⟩ := Frame.readInstruction_ok hi
      refine ⟨⟨i, line⟩, rfl, rfl, hl offset (Nat.le_refl _) hlt, ⟨_, hi⟩, fun fault m' hf => ?_⟩
      rw [dispatch_eq] at hf
      simp only [Frame.beginOp, hi] at hf
      exact (hs.noted hm).not_closes_of_failed hp ht hf
  | @next f g m n m' before last hm hn hrun ih =>
    obtain ⟨chunk, offset, start⟩ := f
    dsimp only at hd
    cases hd with
    | done => simp at hhalt
    | @next _ after line i rest hi hlt hl hrest =>
      rw [heightAfter?] at hh
      split at hh
      · next ht =>
        obtain ⟨-, -, -, -, hp⟩ := Frame.readInstruction_ok hi
        rw [dispatch_eq] at hn
        simp only [Frame.beginOp, hi] at hn
        obtain ⟨hne, rfl, s', hs', hlen⟩ := (hs.noted hm).next_of_perform hp ht hn
        rw [← hlen] at hh
        obtain ⟨e, he, hc, hrest⟩ := ih hs' hrest hh (ContentMachine.exists_halt_rest hhalt hne)
        exact ⟨e, by simpa using he, hc, hrest⟩
      · cases hh

/-- The instruction that a run fails at was emitted for a literal or an operator, and the line
of the error is that of the token. -/
theorem culprit_of_interpret {source : String} {scanned : Scan} (hs : scan source = .ok scanned)
    {m m' : Machine} {e : RuntimeError}
    (h : m.interpret source = (.ok (.runtimeError e), m')) :
    ∃ c before last i number t g, compile source = .ok c ∧
      Dispatches (Frame.ofChunk c) m.cleared before last ∧
      last.2.dispatch last.1 = .failed e.fault m' ∧
      scanned.tokenCode[before.length]? = some ⟨i, number⟩ ∧
      last.1.readInstruction = (.ok i, g) ∧
      scanned.tokens[number]? = some t ∧ t.kind.Yields i ∧ e.line = t.place.line := by
  unfold interpret at h
  split at h
  · cases h
  cases hc : compile source with
  | error es =>
    rw [hc] at h
    cases h
  | ok c =>
    rw [hc] at h
    obtain ⟨before, last, hd, hend⟩ := dispatches_of_interpretChunk h
    obtain ⟨hok, -⟩ | ⟨e', he, hfail, hline⟩ := hend
    · cases hok
    cases he
    obtain ⟨-, hdec⟩ := decodes_tokenCode hs hc
    have hcode := programCode_numbered scanned (parse (numbered scanned.tokens)).2
    have hheight : heightAfter? (scanned.tokenCode.map (Emission.relabel (lineOf scanned.placeOf)))
        0 = some 0 := by
      rw [Scan.tokenCode, ← hcode]
      exact programCode_height _ _
    have hhalt : ∃ x ∈ scanned.tokenCode.map (Emission.relabel (lineOf scanned.placeOf)),
        x.instruction = .op .halt := by
      rw [Scan.tokenCode, ← hcode]
      exact ⟨⟨.op .halt, scanned.finish.line⟩, by simp [programCode], rfl⟩
    obtain ⟨x, hx, hchunk, hbyte, ⟨g, hread⟩, hclose⟩ :=
      hd.decoded (shows_cleared m) hdec hheight hhalt
    rw [List.getElem?_map] at hx
    obtain ⟨⟨i, number⟩, hi, rfl⟩ := Option.map_eq_some_iff.mp hx
    obtain ⟨t, ht, hy⟩ := tokenCode_origin hs hc (List.mem_of_getElem? hi) (hclose _ _ hfail)
    refine ⟨c, before, last, i, number, t, g, rfl, hd, hfail, hi, hread, ht, hy, ?_⟩
    have hentry := Chunk.lineAt_of_ok hline
    have hbyte : c.lines.byteLines[last.1.start]? = some (lineOf scanned.placeOf number) := hbyte
    rw [show last.1.chunk = c from hchunk, Chunk.lineEntry, hbyte, Option.getD_some] at hentry
    rw [← hentry, lineOf, Scan.placeOf, ht]
    rfl

end Machine

/-- The source has as the line of this number the one that `after` begins on. -/
def Source.Echoes (src : Source) (line : Nat) (before after : List Char) : Prop :=
  src.line? line = some (String.ofList (lineAround before after))

theorem Source.echoes_of_count {src : Source} {line : Nat} {before after : List Char}
    (h : src.text.toList = before ++ after) (ha : after ≠ []) (hl : line = 1 + before.count '\n') :
    src.Echoes line before after := by
  rw [Echoes, hl, src.line?_around h, if_neg fun hnone => ha hnone.1]

theorem Source.echoes_token {src : Source} {s : Scan} (hs : scan src.text = .ok s) {number : Nat}
    {t : Token} (ht : s.tokens[number]? = some t) :
    ∃ before after, TokenAt src.text.toList number t before after ∧
      src.Echoes t.place.line before after := by
  obtain ⟨before, c, after, hat, hline⟩ := tokenAt_of_scan hs ht
  obtain ⟨-, -, -, -, -, -, htext, -⟩ := id hat
  exact ⟨before, c :: after, hat, src.echoes_of_count htext (List.cons_ne_nil _ _) hline⟩

/-- After the last token comes the last line, if there is anything on it. -/
theorem Source.line?_finish {src : Source} {s : Scan} (hs : scan src.text = .ok s)
    (hne : s.tokens ≠ []) :
    src.line? s.finish.line =
      if src.text.toList.getLast? = some '\n' then none
      else some (String.ofList (lastLine src.text.toList)) := by
  have htext : src.text.toList ≠ [] := by
    intro hnil
    obtain ⟨t, ht⟩ := List.exists_mem_of_ne_nil _ hne
    obtain ⟨number, ht⟩ := List.mem_iff_getElem?.mp ht
    obtain ⟨before, c, after, ⟨-, -, -, -, -, -, he, -⟩, -⟩ := tokenAt_of_scan hs ht
    rw [hnil] at he
    simp at he
  have hlast : lastLine src.text.toList = [] ↔ src.text.toList.getLast? = some '\n' := by
    rw [lastLine_eq_nil_iff, or_iff_right htext]
  have hl := src.line?_around (List.append_nil src.text.toList).symm
  simp only [true_and, hlast] at hl
  rw [s.line_finish hs, hl]
  simp [lineAround]

/-- A parse error is about one of the tokens, or about the end behind some token. -/
theorem scan_of_parseError {source : String} {es : List CompileError} {p : ParseError}
    (h : compile source = .error es) (hp : .parse p ∈ es) :
    ∃ s number expected, scan source = .ok s ∧ s.tokens ≠ [] ∧
      p = s.unexpected number expected ∧ number ≤ s.tokens.length := by
  obtain ⟨e, -, rfl⟩ | ⟨s, r, hs, hreach, -, hne, rfl⟩ := compile_error_cases h
  · cases List.mem_singleton.mp hp
  have hsound := (Reader.sound_start s).reach hreach
  have htokens : s.tokens ≠ [] := by
    intro hnil
    have hle := Nat.le_trans hsound.errors_le hsound.within
    rw [hnil] at hle
    exact hne (Array.eq_empty_of_size_eq_zero (Nat.le_zero.mp hle))
  obtain ⟨number, hle, expected, he⟩ | hfull := hsound.known _ (Array.mem_toList_iff.mp hp)
  · exact ⟨s, number, expected, hs, htokens, CompileError.parse.inj he, hle⟩
  · cases hfull

theorem scan_of_lexicalError {source : String} {es : List CompileError} {l : LexicalError}
    (h : compile source = .error es) (hl : .lexical l ∈ es) : scan source = .error l := by
  obtain ⟨e, he, rfl⟩ | ⟨s, r, -, hreach, -, -, rfl⟩ := compile_error_cases h
  · cases List.mem_singleton.mp hl
    exact he
  · have hsound := (Reader.sound_start s).reach hreach
    obtain ⟨i, -, x, he⟩ | hfull := hsound.known _ (Array.mem_toList_iff.mp hl)
    · cases he
    · cases hfull

theorem Stuck.ne_newline {c : Char} {rest : List Char} (h : Stuck (c :: rest)) : c ≠ '\n' :=
  Front.ne_newline_of_not_gap h.not_gap

/-- The line of a token counts the newlines before its last character, and that of the end all
of them. The line that a diagnostic shows is the one on which the last character stands of the
token that the error is about: the token at which a statement is mistaken, or where an operator
or a literal fails the one that its instruction is emitted for. Where no piece stands it is the
line of that place. At the end it is the last line, and none if that is empty. -/
theorem Source.diagnostics_echo (src : Source) :
    (∀ s, scan src.text = .ok s →
      (∀ number t, s.tokens[number]? = some t → ∃ before after,
        TokenAt src.text.toList number t before after ∧ t.place.line = 1 + before.count '\n') ∧
      s.finish.line = 1 + src.text.toList.count '\n') ∧
    (∀ es l, compile src.text = .error es → .lexical l ∈ es → ∃ fs c rest,
      Splits src.text.toList fs (c :: rest) ∧ Stuck (c :: rest) ∧
      l.fault = (if c = '"' then .unterminated else .unexpected c) ∧
      src.Echoes l.place.line (fs.flatMap Front.text) (c :: rest)) ∧
    (∀ es p t, compile src.text = .error es → .parse p ∈ es → p.found = some t →
      ∃ s number before after, scan src.text = .ok s ∧ s.tokens[number]? = some t ∧
        TokenAt src.text.toList number t before after ∧ src.Echoes p.place.line before after) ∧
    (∀ es p, compile src.text = .error es → .parse p ∈ es → p.found = none →
      src.line? p.place.line =
        if src.text.toList.getLast? = some '\n' then none
        else some (String.ofList (lastLine src.text.toList))) ∧
    ∀ (m m' : Machine) e, m.interpret src.text = (.ok (.runtimeError e), m') →
      ∃ s c done last i number t g before after, scan src.text = .ok s ∧
        compile src.text = .ok c ∧ Machine.Dispatches (Frame.ofChunk c) m.cleared done last ∧
        last.2.dispatch last.1 = .failed e.fault m' ∧
        s.tokenCode[done.length]? = some ⟨i, number⟩ ∧ last.1.readInstruction = (.ok i, g) ∧
        s.tokens[number]? = some t ∧ t.kind.Yields i ∧
        TokenAt src.text.toList number t before after ∧ src.Echoes e.line before after := by
  refine ⟨?_, ?_, ?_, ?_, ?_⟩
  · intro s hs
    refine ⟨fun number t ht => ?_, s.line_finish hs⟩
    obtain ⟨before, c, after, hat, hline⟩ := tokenAt_of_scan hs ht
    exact ⟨before, c :: after, hat, hline⟩
  · intro es l h hl
    obtain ⟨fs, c, rest, hsplits, hstuck, rfl⟩ := scan_eq_error_iff.mp (scan_of_lexicalError h hl)
    refine ⟨fs, c, rest, hsplits, hstuck, rfl, ?_⟩
    refine src.echoes_of_count hsplits.text (List.cons_ne_nil _ _) ?_
    simp only [Place.afterInner, if_neg hstuck.ne_newline, Place.line_after, Place.start]
  · intro es p t h hp ht
    obtain ⟨s, number, expected, hs, -, rfl, -⟩ := scan_of_parseError h hp
    have hnumber : s.tokens[number]? = some t := ht
    obtain ⟨before, after, hat, hecho⟩ := src.echoes_token hs hnumber
    have hplace : (s.unexpected number expected).place = t.place := by
      rw [Scan.unexpected, Scan.placeOf, hnumber]
      rfl
    rw [hplace]
    exact ⟨s, number, before, after, hs, hnumber, hat, hecho⟩
  · intro es p h hp hnone
    obtain ⟨s, number, expected, hs, htokens, rfl, -⟩ := scan_of_parseError h hp
    have hnumber : s.tokens[number]? = none := hnone
    have hplace : (s.unexpected number expected).place = s.finish := by
      rw [Scan.unexpected, Scan.placeOf, hnumber]
      rfl
    rw [hplace]
    exact src.line?_finish hs htokens
  · intro m m' e h
    obtain ⟨s, hs⟩ : ∃ s, scan src.text = .ok s := by
      cases hs : scan src.text with
      | ok s => exact ⟨s, rfl⟩
      | error l =>
        unfold Machine.interpret at h
        simp only [compile, hs] at h
        split at h <;> cases h
    obtain ⟨c, done, last, i, number, t, g, hc, hd, hfail, hi, hread, ht, hy, hline⟩ :=
      Machine.culprit_of_interpret hs h
    obtain ⟨before, after, hat, hecho⟩ := src.echoes_token hs ht
    rw [← hline] at hecho
    exact ⟨s, c, done, last, i, number, t, g, before, after, hs, hc, hd, hfail, hi, hread, ht, hy,
      hat, hecho⟩

/-- An operator behind a string of two lines, a mistake at a token and one at the end, and a
quote that nothing closes. -/
theorem Source.diagnostics_echo_lines :
    (let src : Source := ⟨.literal, "\"a\r\nb\" +\r\n1;"⟩
      ∃ s m' number t before after, scan src.text = .ok s ∧ s.finish.line = 3 ∧
        (Machine.new ⟨2, false, false⟩).interpret src.text =
          (.ok (.runtimeError ⟨2, .notNumbersNorStrings .string .number⟩), m') ∧
        TokenAt src.text.toList number t before after ∧ src.Echoes 2 before after ∧
        src.line? 2 = some "b\" +") ∧
    (let src : Source := ⟨.literal, "1 +\r\n;\r\n"⟩
      ∃ es p t number before after, compile src.text = .error es ∧ .parse p ∈ es ∧
        p.found = some t ∧ TokenAt src.text.toList number t before after ∧
        src.Echoes p.place.line before after) ∧
    (let src : Source := ⟨.literal, "nil\n"⟩
      ∃ es p, compile src.text = .error es ∧ .parse p ∈ es ∧ p.found = none ∧
        src.line? p.place.line = none) ∧
    (let src : Source := ⟨.literal, "\"a\nb"⟩
      ∃ es l before after, compile src.text = .error es ∧ .lexical l ∈ es ∧
        src.text.toList = before ++ after ∧ src.Echoes l.place.line before after) := by
  refine ⟨?_, ?_, ?_, ?_⟩
  · intro src
    have hv : ((Machine.new ⟨2, false, false⟩).interpret src.text).1 =
        .ok (.runtimeError ⟨2, .notNumbersNorStrings .string .number⟩) := by decide +kernel
    have h : (Machine.new ⟨2, false, false⟩).interpret src.text = (.ok _, _) := Prod.ext hv rfl
    obtain ⟨hscan, -, -, -, hruntime⟩ := src.diagnostics_echo
    obtain ⟨s, c, done, last, i, number, t, g, before, after, hs, -, -, -, -, -, -, -, hat, hecho⟩ :=
      hruntime _ _ _ h
    obtain ⟨-, hfinish⟩ := hscan s hs
    exact ⟨s, _, number, t, before, after, hs, hfinish.trans (by decide), h, hat, hecho, by decide⟩
  · intro src
    let t : Token := ⟨.semicolon, ";", ⟨2, 1⟩⟩
    have h : compile src.text = .error [.parse ⟨.operand, some t, ⟨2, 1⟩⟩] := by decide +kernel
    have hp := List.mem_singleton_self (CompileError.parse ⟨.operand, some t, ⟨2, 1⟩⟩)
    obtain ⟨-, -, hparse, -⟩ := src.diagnostics_echo
    obtain ⟨s, number, before, after, -, -, hat, hecho⟩ := hparse _ _ t h hp rfl
    exact ⟨_, _, t, number, before, after, h, hp, rfl, hat, hecho⟩
  · intro src
    let p : ParseError := ⟨.semicolonAfterExpression, none, ⟨2, 0⟩⟩
    have h : compile src.text = .error [.parse p] := by decide +kernel
    have hp := List.mem_singleton_self (CompileError.parse p)
    obtain ⟨-, -, -, hend, -⟩ := src.diagnostics_echo
    have hl := hend _ p h hp rfl
    rw [if_pos (by decide)] at hl
    exact ⟨_, p, h, hp, rfl, hl⟩
  · intro src
    let l : LexicalError := ⟨.unterminated, ⟨1, 0⟩⟩
    have h : compile src.text = .error [.lexical l] := by decide +kernel
    have hmem := List.mem_singleton_self (CompileError.lexical l)
    obtain ⟨-, hlexical, -⟩ := src.diagnostics_echo
    obtain ⟨fs, c, rest, hs, -, -, hecho⟩ := hlexical _ l h hmem
    exact ⟨_, l, _, _, h, hmem, hs.text, hecho⟩

end ExprMachine
