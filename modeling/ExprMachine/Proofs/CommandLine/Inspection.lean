import ExprMachine.CommandLine.Session
import ExprMachine.Proofs.Compile.Acceptance
import ExprMachine.Proofs.Machine.Tracing
import ExprMachine.Proofs.Source.Reports
import ExprMachine.Proofs.Token.Splitting

/-! Looking into a program on the command line. A listing comes before what the run shows, and
a dump is shown in place of a run. -/

namespace ExprMachine

namespace Options

/-- The options with a listing or without, and with a dump or without. -/
def inspecting (o : Options) (listed dumped : Bool) : Options :=
  { o with disassemble := listed, dump := dumped }

def Plain (o : Options) : Prop := o.disassemble = false ∧ o.dump = false

/-- An option that neither looks at what is to be inspected nor changes it. -/
def Blind (set : Options → String → Option Options) : Prop :=
  ∀ o listed dumped text,
    set (o.inspecting listed dumped) text = (set o text).map (·.inspecting listed dumped)

theorem blind_setLiteral : Blind setLiteral := by
  intro o listed dumped text
  simp only [setLiteral, inspecting, Option.map_map]
  rfl

theorem blind_setFile : Blind setFile := by
  intro o listed dumped text
  simp only [setFile, inspecting, Option.map_map]
  rfl

theorem blind_setter {name : List Char} {set : Options → String → Option Options}
    (h : setter? name = some set) : Blind set := by
  unfold setter? at h
  dsimp only at h
  split at h
  · cases h
    exact blind_setLiteral
  split at h
  · cases h
    intro o listed dumped text
    simp only [setCapacity, inspecting, Option.map_map]
    rfl
  split at h
  · cases h
    intro o listed dumped text
    simp only [setSettingsFile, inspecting, Option.map_map]
    rfl
  · cases h

variable {o o' : Options}

theorem Blind.plain {set : Options → String → Option Options} (hb : Blind set) {text : String}
    (h : set o text = some o') (hp : o'.Plain) (listed dumped : Bool) :
    o.Plain ∧ set (o.inspecting listed dumped) text = some (o'.inspecting listed dumped) := by
  refine ⟨?_, by rw [hb, h, Option.map_some]⟩
  -- what is not looked at stays as it is
  have hsame := hb o o.disassemble o.dump text
  have ho : o.inspecting o.disassemble o.dump = o := rfl
  rw [ho, h, Option.map_some, Option.some_inj] at hsame
  rw [hsame] at hp
  exact hp

theorem flag_plain {name : List Char} (h : o.flag? name = some o') (hp : o'.Plain)
    (listed dumped : Bool) :
    o.Plain ∧ (o.inspecting listed dumped).flag? name = some (o'.inspecting listed dumped) := by
  obtain ⟨hlisted, hdumped⟩ := hp
  unfold flag? at h
  dsimp only at h
  split at h
  · cases h
    cases hlisted
  · next hdisassemble =>
    split at h
    · cases h
      cases hdumped
    · next hdump =>
      split at h
      · next htrace =>
        cases h
        refine ⟨⟨hlisted, hdumped⟩, ?_⟩
        have hname : String.ofList name = "trace" := by simpa using (Bool.and_eq_true_iff.mp htrace).1
        have hset : o.trace = false := by simpa using (Bool.and_eq_true_iff.mp htrace).2
        simp [flag?, inspecting, hname, hset]
      · cases h

/-- What an argument does to options that inspect nothing in the end. -/
def SameArgument (o : Options) (listed dumped : Bool) : Argument → Argument → Prop
  | .positional, a => a = .positional
  | .separator, a => a = .separator
  | .help, a => a = .help
  | .pending set, a => a = .pending set ∧ Blind set
  | .complete result, a => ∀ o', result = some o' → o'.Plain →
    o.Plain ∧ a = .complete (some (o'.inspecting listed dumped))

theorem sameArgument (o : Options) (listed dumped : Bool) (text : String) :
    SameArgument o listed dumped (o.argument text)
      ((o.inspecting listed dumped).argument text) := by
  have hblind {set : Options → String → Option Options} (hb : Blind set) (value : String) :
      SameArgument o listed dumped (.complete (set o value))
        (.complete (set (o.inspecting listed dumped) value)) := by
    intro o' h hp
    obtain ⟨ho, hs⟩ := hb.plain h hp listed dumped
    exact ⟨ho, congrArg Argument.complete hs⟩
  have hnone (a : Argument) : SameArgument o listed dumped (.complete none) a := nofun
  unfold argument
  split
  · exact rfl
  · unfold longArgument
    dsimp only
    split
    · next hs _ => exact ⟨rfl, blind_setter hs⟩
    · next hs _ => exact hblind (blind_setter hs) _
    · split
      · exact rfl
      · intro o' h hp
        obtain ⟨ho, hf⟩ := flag_plain h hp listed dumped
        exact ⟨ho, congrArg Argument.complete hf⟩
    · exact hnone _
  · exact rfl
  · unfold shortArgument
    split
    · exact ⟨rfl, blind_setLiteral⟩
    · exact hblind blind_setLiteral _
    · exact hblind blind_setLiteral _
    · exact rfl
    · exact hnone _
  · exact rfl

theorem of_misusedUnless {x : Option Options} {f : Options → Except Unread Options}
    (h : (Unread.misusedUnless x >>= f) = .ok o') : ∃ next, x = some next ∧ f next = .ok o' := by
  cases x with
  | none => cases h
  | some next => exact ⟨next, rfl, h⟩

theorem readFiles_plain {arguments : List String} (h : readFiles o arguments = .ok o')
    (hp : o'.Plain) (listed dumped : Bool) : o.Plain ∧
      readFiles (o.inspecting listed dumped) arguments = .ok (o'.inspecting listed dumped) := by
  induction arguments generalizing o with
  | nil =>
    cases h
    exact ⟨hp, rfl⟩
  | cons text rest ih =>
    obtain ⟨next, hset, hrest⟩ := of_misusedUnless h
    obtain ⟨hn, hr⟩ := ih hrest
    obtain ⟨ho, hs⟩ := blind_setFile.plain hset hn listed dumped
    exact ⟨ho, by rw [readFiles, hs]; exact hr⟩

/-- Arguments that ask for no inspection are read as before where one was asked for already. -/
theorem readFrom_plain {arguments : List String} (h : readFrom o arguments = .ok o')
    (hp : o'.Plain) (listed dumped : Bool) : o.Plain ∧
      readFrom (o.inspecting listed dumped) arguments = .ok (o'.inspecting listed dumped) := by
  induction o, arguments using readFrom.induct with
  | case1 o =>
    cases h
    exact ⟨hp, rfl⟩
  | case2 o text rest ha ih =>
    have hsame := sameArgument o listed dumped text
    rw [ha] at hsame
    rw [readFrom, ha] at h
    obtain ⟨next, hset, hrest⟩ := of_misusedUnless h
    obtain ⟨hn, hr⟩ := ih next hrest
    obtain ⟨ho, hs⟩ := blind_setFile.plain hset hn listed dumped
    refine ⟨ho, ?_⟩
    rw [readFrom, show _ = Argument.positional from hsame]
    simp only [hs]
    exact hr
  | case3 o text rest result ha ih =>
    have hsame := sameArgument o listed dumped text
    rw [ha] at hsame
    rw [readFrom, ha] at h
    obtain ⟨next, hset, hrest⟩ := of_misusedUnless h
    obtain ⟨hn, hr⟩ := ih next hrest
    obtain ⟨ho, hs⟩ := hsame next hset hn
    refine ⟨ho, ?_⟩
    rw [readFrom, hs]
    exact hr
  | case4 o text rest ha =>
    have hsame := sameArgument o listed dumped text
    rw [ha] at hsame
    rw [readFrom, ha] at h
    obtain ⟨ho, hr⟩ := readFiles_plain h hp listed dumped
    refine ⟨ho, ?_⟩
    rw [readFrom, show _ = Argument.separator from hsame]
    exact hr
  | case5 o text rest ha =>
    rw [readFrom, ha] at h
    cases h
  | case6 o text set ha =>
    rw [readFrom, ha] at h
    cases h
  | case7 o text set ha value rest hv ih =>
    have hsame := sameArgument o listed dumped text
    have hvalue := sameArgument o listed dumped value
    rw [ha] at hsame
    rw [hv] at hvalue
    rw [readFrom, ha] at h
    simp only [hv] at h
    obtain ⟨next, hset, hrest⟩ := of_misusedUnless h
    obtain ⟨hn, hr⟩ := ih next hrest
    obtain ⟨hpending, hb⟩ := hsame
    obtain ⟨ho, hs⟩ := hb.plain hset hn listed dumped
    refine ⟨ho, ?_⟩
    rw [readFrom, hpending]
    simp only [show _ = Argument.positional from hvalue, hs]
    exact hr
  | case8 o text set ha value rest hv =>
    rw [readFrom, ha] at h
    dsimp only at h
    split at h
    · next hpos => exact (hv hpos).elim
    · cases h

/-- The flags that ask for an inspection. -/
def flags (listed dumped : Bool) : List String :=
  (if listed then ["--disassemble"] else []) ++ if dumped then ["--dump-chunk"] else []

/-- Whatever else is asked for, an inspection can be asked for in front of it. -/
theorem read_flags {arguments : List String} (h : read arguments = .ok o) (hp : o.Plain)
    (listed dumped : Bool) :
    read (flags listed dumped ++ arguments) = .ok (o.inspecting listed dumped) := by
  rw [read] at h
  cases hr : readFrom empty arguments with
  | error e =>
    rw [hr] at h
    cases h
  | ok o' =>
    simp only [hr, Except.bind, bind] at h
    split at h
    · cases h
    · next hone =>
      cases h
      obtain ⟨-, hread⟩ := readFrom_plain hr hp listed dumped
      have hfront : readFrom empty (flags listed dumped ++ arguments) =
          readFrom (empty.inspecting listed dumped) arguments := by
        cases listed <;> cases dumped <;> rfl
      rw [read, hfront, hread]
      exact if_neg hone

/-- The source that the options ask to be run, if it is there. -/
def source? (o : Options) (w : Surroundings) : Option Source :=
  match o.literal, o.file with
  | some text, _ => some ⟨.literal, text⟩
  | none, some path => (w.readFile path).toOption.map (⟨.file path, ·⟩)
  | none, none => none

end Options

/-- The answer with something shown before it. -/
def Answer.showing (a : Answer) (shown : String) : Answer :=
  { a with stdout := shown ++ a.stdout }

theorem Chunk.exists_listing {source : String} {c : Chunk} (hc : compile source = .ok c)
    (hw : c.code.size < Word.size) (name : String) : ∃ listing, c.listing name = .ok listing := by
  obtain ⟨-, -, -, -, -, ha, -⟩ := compile_spec hc
  have hl : c.lines.total < Word.size := by rwa [← LineTable.length_byteLines, ha]
  obtain ⟨texts, ht⟩ := c.exists_instructions hl
  exact ⟨_, by rw [Chunk.listing, ht]; rfl⟩

namespace Session

variable (s : Session) {source : Source}

theorem answer_color {t : Session} (h : t.color = s.color) (source : Source) (shown : String)
    (v : Verdict) (m : Machine) :
    (t.answer source shown v m).1 = (s.answer source shown v m).1 := by
  simp only [answer, h]
  cases (Report.verdict s.color source v).refusal <;> rfl

theorem answer_showing {t : Session} (h : t.color = s.color) (source : Source) (shown : String)
    (v : Verdict) (m : Machine) :
    (t.answer source shown v m).1 = (s.answer source "" v m).1.showing shown := by
  simp only [answer, h]
  cases (Report.verdict s.color source v).refusal <;>
    simp [Answer.showing, String.empty_append]

theorem runSource_of_errors {errors : List CompileError}
    (h : compile source.text = .error errors) :
    s.runSource source = s.answer source "" (.compileErrors errors) s.machine := by
  rw [runSource, h]

/-- Errors whose marks fit are reported, each after the other. -/
theorem runSource_of_fits {errors : List CompileError} (h : compile source.text = .error errors)
    (hs : s.machine.console = #[]) (hall : ∀ e ∈ errors, Report.MarkFits source.cut e) :
    (s.runSource source).1 = ⟨.exit 65, "", String.join
      (errors.map fun e => (Report.compileError s.color source.cut e).text)⟩ := by
  rw [runSource_of_errors s h, answer, Report.verdict_fits s.color source hall]
  simp only [Written.whole, Machine.takeConsole, hs]
  rfl

/-- An error whose mark is too wide ends the session in the middle of its report. -/
theorem runSource_of_cutShort {errors : List CompileError}
    (h : compile source.text = .error errors) (hs : s.machine.console = #[])
    (hnot : ¬∀ e ∈ errors, Report.MarkFits source.cut e) :
    ∃ report, Report.CutShort s.color source.cut errors report ∧
      s.runSource source = (⟨.refused .fillTooWide, "", report⟩, none) := by
  obtain ⟨report, hcut, hverdict⟩ := Report.verdict_cutShort s.color source hnot
  refine ⟨report, hcut, ?_⟩
  rw [runSource_of_errors s h, answer, hverdict]
  simp only [Machine.takeConsole, hs]
  rfl

theorem runSource_dumped {c : Chunk} (h : compile source.text = .ok c)
    (hd : s.options.dump = true) :
    s.runSource source = (⟨.exit 0, c.storeIndented ++ "\n", ""⟩, some s) := by
  simp only [runSource, h, hd, if_true]

theorem runSource_shown {c : Chunk} (h : compile source.text = .ok c)
    (hd : s.options.dump = false) {shown : String}
    (hs : s.preview source.name c = .ok shown) :
    (s.runSource source).1 =
      match s.machine.interpretChunk c with
      | (.ok v, m) => (s.answer source shown v m).1
      | (.error r, m) => ⟨.refused r, shown ++ m.takeConsole.1, ""⟩ := by
  simp only [runSource, h, hd, hs, Bool.false_eq_true, if_false]
  rcases s.machine.interpretChunk c with ⟨v | r, m⟩ <;> rfl

/-- What a session shows first comes before all that it shows without. -/
theorem runSource_listed {s : Session} {o : Options} (hp : o.Plain) {c : Chunk}
    (h : compile source.text = .ok c) {listing : String}
    (hl : c.listing source.name = .ok listing) :
    (Session.runSource { s with options := o.inspecting true false } source).1 =
      (Session.runSource { s with options := o } source).1.showing (listing ++ "\n") := by
  obtain ⟨hlisted, hdumped⟩ := hp
  have hblank : preview { s with options := o } source.name c = .ok "" := by
    simp only [preview, hlisted, Bool.false_eq_true, if_false]
  rw [runSource_shown { s with options := o } h hdumped hblank,
    runSource_shown { s with options := o.inspecting true false } h rfl
      (by simp only [preview, hl, Options.inspecting, if_true]; rfl)]
  dsimp only
  split
  · apply answer_showing
    rfl
  · simp only [Answer.showing, String.empty_append]

end Session

namespace CommandLine

variable {w : Surroundings} {o : Options} {st : Settings} {source : Source}

theorem run_of_source {arguments : List String} (hr : Options.read arguments = .ok o)
    (hsettings : settings o w = .ok st) (hsource : o.source? w = some source) (stdin : String) :
    run arguments w stdin = .ok (runOnly (session o (colored w) st) source) := by
  suffices h : start o w = .answered (runOnly (session o (colored w) st) source) by
    simp only [run, hr, bind, Except.bind, h]
  cases hl : o.literal with
  | some text =>
    simp only [Options.source?, hl, Option.some.injEq] at hsource
    subst hsource
    simp only [start, hsettings, hl]
  | none =>
    cases hf : o.file with
    | none =>
      simp only [Options.source?, hl, hf] at hsource
      cases hsource
    | some path =>
      cases hfile : w.readFile path with
      | error fault =>
        simp only [Options.source?, hl, hf, hfile] at hsource
        cases hsource
      | ok text =>
        simp only [Options.source?, hl, hf, hfile] at hsource
        cases hsource
        simp only [start, hsettings, hl, hf, hfile]

theorem session_ok (o : Options) (color : Bool) (h : st.capacity ≤ Stack.largestCapacity) :
    session o color st = .ok ⟨o, color, (Machine.new st).init⟩ := by
  rw [session, Machine.create, if_pos h]
  rfl

theorem session_refused (o : Options) (color : Bool) (h : Stack.largestCapacity < st.capacity) :
    session o color st = .error .capacityTooLarge := by
  rw [session, Machine.create, if_neg (Nat.not_le_of_lt h)]
  rfl

/-- An inspection does not change what becomes of a source. Its listing comes before what the
plain run shows; its dump comes alone, and nothing is run. Mistakes are reported as before, with
the status for them unless one is so far to the right that no mark can be put there. Then the
reports end behind its line. -/
theorem run_inspecting (arguments inspecting : List String) (w : Surroundings) (stdin : String)
    (o : Options) (listed dumped : Bool) (st : Settings) (source : Source)
    (hplain : Options.read arguments = .ok o) (hp : o.Plain)
    (hinspecting : Options.read inspecting = .ok (o.inspecting listed dumped))
    (hsettings : settings o w = .ok st) (hsource : o.source? w = some source) :
    Options.read (Options.flags listed dumped ++ arguments) = .ok (o.inspecting listed dumped) ∧
    ∃ plain answer, run arguments w stdin = .ok plain ∧ run inspecting w stdin = .ok answer ∧
    (Stack.largestCapacity < st.capacity →
      plain = ⟨.refused .capacityTooLarge, "", ""⟩ ∧ answer = plain) ∧
    (st.capacity ≤ Stack.largestCapacity →
      (∀ errors, compile source.text = .error errors →
        answer = plain ∧
        ((∀ e ∈ errors, Report.MarkFits source.cut e) →
          plain = ⟨.exit 65, "", String.join
            (errors.map fun e => (Report.compileError (colored w) source.cut e).text)⟩) ∧
        ((¬∀ e ∈ errors, Report.MarkFits source.cut e) → ∃ report,
          Report.CutShort (colored w) source.cut errors report ∧
            plain = ⟨.refused .fillTooWide, "", report⟩)) ∧
      ∀ c, compile source.text = .ok c →
        (dumped = true → answer = ⟨.exit 0, c.storeIndented ++ "\n", ""⟩ ∧
          ∃ s, session (o.inspecting listed dumped) (colored w) st = .ok s ∧
            s.runSource source = (answer, some s)) ∧
        (c.code.size < Word.size → ∃ listing, c.listing source.name = .ok listing) ∧
        (dumped = false → listed = true → ∀ listing, c.listing source.name = .ok listing →
          answer = plain.showing (listing ++ "\n"))) := by
  refine ⟨Options.read_flags hplain hp listed dumped, _, _,
    run_of_source hplain hsettings hsource stdin, run_of_source hinspecting hsettings hsource stdin,
    fun hlarge => ?_, fun hfits => ?_⟩
  · rw [session_refused _ _ hlarge, session_refused _ _ hlarge]
    exact ⟨rfl, rfl⟩
  rw [session_ok _ _ hfits, session_ok _ _ hfits]
  refine ⟨fun errors he => ?_, fun c hc => ?_⟩
  · refine ⟨?_, fun hall => ?_, fun hnot => ?_⟩
    · rw [runOnly, runOnly, Session.runSource_of_errors _ he, Session.runSource_of_errors _ he]
      apply Session.answer_color
      rfl
    · exact Session.runSource_of_fits _ he rfl hall
    · obtain ⟨report, hcut, hrun⟩ := Session.runSource_of_cutShort
        ⟨o, colored w, (Machine.new st).init⟩ he rfl hnot
      exact ⟨report, hcut, congrArg Prod.fst hrun⟩
  · refine ⟨fun hd => ?_, fun hw => Chunk.exists_listing hc hw _, fun hd hl listing hlisting => ?_⟩
    · have hdumped := Session.runSource_dumped
        ⟨o.inspecting listed dumped, colored w, (Machine.new st).init⟩ hc hd
      rw [runOnly, hdumped]
      exact ⟨rfl, _, rfl, hdumped⟩
    · rw [hd, hl]
      exact Session.runSource_listed (s := ⟨o, colored w, (Machine.new st).init⟩) hp hc hlisting

/-- The listing comes before what was printed up to the fault. -/
theorem run_inspecting_fault :
    let text := "print 1; print -nil;"
    let w : Surroundings := ⟨fun _ => none, fun _ => .error .missing, fun _ => ""⟩
    ∃ c listing plain, compile text = .ok c ∧
      c.listing "<command-line input>" = .ok listing ∧ run ["-c", text] w "" = .ok plain ∧
      run ["--disassemble", "-c", text] w "" = .ok (plain.showing (listing ++ "\n")) ∧
      run ["--disassemble", "--dump-chunk", "-c", text] w "" =
        .ok ⟨.exit 0, c.storeIndented ++ "\n", ""⟩ := by
  intro text w
  have hcompile : ((compile text).toOption.map fun c => decide (c.code.size < Word.size)) =
      some true := by decide +kernel
  obtain ⟨c, hc, hw⟩ := exists_ok_of_toOption hcompile
  have hplain : Options.read ["-c", text] = .ok { Options.empty with literal := some text } := by
    decide +kernel
  have hlisted : Options.read ["--disassemble", "-c", text] =
      .ok ({ Options.empty with literal := some text }.inspecting true false) := by
    decide +kernel
  have hdumped : Options.read ["--disassemble", "--dump-chunk", "-c", text] =
      .ok ({ Options.empty with literal := some text }.inspecting true true) := by
    decide +kernel
  have hsettings : settings { Options.empty with literal := some text } w = .ok Settings.default :=
    rfl
  have hfits : Settings.default.capacity ≤ Stack.largestCapacity := by decide
  obtain ⟨-, plain, answer, hrun, hanswer, -, hall⟩ :=
    run_inspecting _ _ w "" _ _ _ _ ⟨.literal, text⟩ hplain ⟨rfl, rfl⟩ hlisted hsettings rfl
  obtain ⟨-, hcompiled⟩ := hall hfits
  obtain ⟨-, hexists, hlisting⟩ := hcompiled c hc
  obtain ⟨listing, hl⟩ := hexists (of_decide_eq_true hw)
  obtain ⟨-, _, dump, -, hdump, -, hall'⟩ :=
    run_inspecting _ _ w "" _ _ _ _ ⟨.literal, text⟩ hplain ⟨rfl, rfl⟩ hdumped hsettings rfl
  obtain ⟨-, hcompiled'⟩ := hall' hfits
  obtain ⟨hjson, -⟩ := hcompiled' c hc
  refine ⟨c, listing, plain, hc, hl, hrun, ?_, ?_⟩
  · rw [hanswer, hlisting rfl rfl listing hl]
  · rw [hdump, (hjson rfl).1]

theorem scanFrom_blanks (n : Nat) (p : Place) (found : Array Token) (cs : List Char) :
    scanFrom p found (List.replicate n ' ' ++ cs) = scanFrom ⟨p.line, p.column + n⟩ found cs := by
  induction n generalizing p with
  | zero => simp
  | succ n ih =>
    have hfront : front ' ' (List.replicate n ' ' ++ cs) =
        .ok ⟨.blank, [' '], List.replicate n ' ' ++ cs⟩ := rfl
    have hplace : p.afterFront ⟨.blank, [' '], List.replicate n ' ' ++ cs⟩ =
        ⟨p.line, p.column + 1⟩ := rfl
    have hcolumn : p.column + 1 + (n : Int) = p.column + ((n + 1 : Nat) : Int) := by omega
    rw [List.replicate_succ, List.cons_append, scanFrom_of_ok hfront, hplace, Front.token?]
    simp only [Option.toArray_none, Array.append_empty]
    rw [ih, hcolumn]

theorem compile_blanks (n : Nat) :
    compile (String.ofList (List.replicate n ' ' ++ ['@'])) =
      .error [.lexical ⟨.unexpected '@', ⟨1, n⟩⟩] := by
  have hfront : front '@' [] = .error (.unexpected '@') := rfl
  have hcolumn : (-1 : Int) + n + 1 = n := by omega
  have hplace : Place.afterInner ⟨1, -1 + (n : Int)⟩ '@' = ⟨1, n⟩ :=
    congrArg (Place.mk 1) hcolumn
  have hscan : scan (String.ofList (List.replicate n ' ' ++ ['@'])) =
      .error ⟨.unexpected '@', ⟨1, n⟩⟩ := by
    rw [scan, String.toList_ofList, scanFrom_blanks, scanFrom_of_error hfront]
    exact congrArg (fun p => Except.error (LexicalError.mk (.unexpected '@') p)) hplace
  rw [compile, hscan]

/-- What is written of a character that begins no token, behind as many blanks. -/
def blanksReport (source : Source) (color : Bool) (n : Nat) : String :=
  Report.unmarked color source.name (.lexical ⟨.unexpected '@', ⟨1, n⟩⟩) ⟨1, n⟩ source.text

/-- A mistake after more blanks than a mark can be wide is not marked. -/
theorem Session.runSource_blanks {n : Nat} (h : Padding.widest < n) {s : Session}
    (hs : s.machine.console = #[]) {source : Source}
    (htext : source.text.toList = List.replicate n ' ' ++ ['@']) :
    s.runSource source = (⟨.refused .fillTooWide, "", blanksReport source s.color n⟩, none) := by
  have hcompile : compile source.text = .error [.lexical ⟨.unexpected '@', ⟨1, n⟩⟩] := by
    rw [← compile_blanks, ← htext, String.ofList_toList]
  have hline : source.cut.line? 1 = some source.text :=
    Source.line?_first (by simp [htext]) (by simp [htext])
  have hwide : ¬Report.MarkFits source.cut (.lexical ⟨.unexpected '@', ⟨1, n⟩⟩) :=
    Report.not_markFits rfl hline h
  obtain ⟨report, hcut, hrun⟩ := Session.runSource_of_cutShort s hcompile hs
    fun hall => hwide (hall _ (List.mem_singleton_self _))
  rw [hrun, hcut.eq_unmarked rfl hline]
  rfl

theorem dump_blanks {n : Nat} (h : Padding.widest < n) (w : Surroundings) {text : String}
    (htext : text.toList = List.replicate n ' ' ++ ['@'])
    (hsettings : settings { Options.empty with literal := some text, dump := true } w =
      .ok Settings.default) :
    run ["--dump-chunk", "-c", text] w "" =
      .ok ⟨.refused .fillTooWide, "", blanksReport ⟨.literal, text⟩ (colored w) n⟩ := by
  have hread : Options.read ["--dump-chunk", "-c", text] =
      .ok { Options.empty with literal := some text, dump := true } := by
    have hvalue (o : Options) : o.argument text = .positional := by
      obtain ⟨n, rfl⟩ : ∃ k, n = k + 1 := ⟨n - 1, by omega⟩
      rw [Options.argument, htext, List.replicate_succ]
      rfl
    have hrest : Options.readFrom { Options.empty with dump := true } ["-c", text] =
        .ok { Options.empty with literal := some text, dump := true } := by
      rw [Options.readFrom, show Options.argument _ "-c" = .pending Options.setLiteral from rfl]
      simp only [hvalue]
      rfl
    have hfront : Options.readFrom Options.empty ["--dump-chunk", "-c", text] =
        Options.readFrom { Options.empty with dump := true } ["-c", text] := rfl
    rw [Options.read, hfront, hrest]
    rfl
  rw [@run_of_source _ _ _ ⟨.literal, text⟩ _ hread hsettings rfl, session_ok _ _ (by decide),
    runOnly, Session.runSource_blanks h rfl htext]

theorem dump_refused :
    let text := String.ofList (List.replicate 65540 ' ' ++ ['@'])
    let w : Surroundings := ⟨fun _ => none, fun _ => .error .missing, fun _ => ""⟩
    let report := "stackvm: lexical error: Unexpected character '@'.\n" ++
      "in <command-line input>, at line 1, column 65540:\n" ++ text ++ "\n"
    (∃ errors, compile text = .error errors) ∧
      run ["--dump-chunk", "-c", text] w "" = .ok ⟨.refused .fillTooWide, "", report⟩ := by
  intro text w report
  have htext : text.toList = List.replicate 65540 ' ' ++ ['@'] := String.toList_ofList
  refine ⟨⟨_, compile_blanks 65540⟩, ?_⟩
  rw [dump_blanks (by decide) w htext rfl, blanksReport, Report.unmarked]
  have hfront : Report.headline false "lexical error" "Unexpected character '@'." ++
      ("in " ++ "<command-line input>" ++ ", at line " ++ toString 1 ++ ", column " ++
        toString (65540 : Int) ++ ":\n") =
      "stackvm: lexical error: Unexpected character '@'.\n" ++
        "in <command-line input>, at line 1, column 65540:\n" := by decide +kernel
  exact congrArg (fun front => Except.ok (Answer.mk _ "" (front ++ text ++ "\n"))) hfront

end CommandLine

end ExprMachine
