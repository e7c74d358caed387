import ExprMachine.Proofs.CommandLine.Inspection
import ExprMachine.Proofs.Machine.Life

/-! The lines of a session. Each of them is answered as in a session of its own, whatever those
before it have left behind. Only a line that cannot be reported ends the session. -/

namespace ExprMachine

/-- The call comes to its end, and is not refused on the way. -/
def Answer.Exits (a : Answer) : Prop := ∃ status, a.ending = .exit status

/-- A machine between two lines, as far as the next line can tell. -/
structure Machine.Idle (st : Settings) (m : Machine) : Prop where
  settings : m.settings = st
  capacity : m.stack.capacity = st.capacity
  live : m.tornDown = false
  console : m.console = #[]

namespace Machine.Idle

variable {st : Settings} {m n : Machine}

theorem new (st : Settings) : Idle st (Machine.new st).init := ⟨rfl, rfl, rfl, rfl⟩

theorem takeConsole (h : m.Idle st) : m.takeConsole.2.Idle st ∧ m.takeConsole.1 = "" := by
  refine ⟨⟨h.settings, h.capacity, h.live, rfl⟩, ?_⟩
  simp [Machine.takeConsole, h.console]

/-- Running a chunk makes the same of any two of these machines, as far as it shows. -/
theorem interpretChunk (hm : m.Idle st) (hn : n.Idle st) (c : Chunk) :
    (m.interpretChunk c).1 = (n.interpretChunk c).1 ∧
      (m.interpretChunk c).2.takeConsole.1 = (n.interpretChunk c).2.takeConsole.1 ∧
      (m.interpretChunk c).2.takeConsole.2.Idle st := by
  -- both show what the machine on contents does, which has no heap and starts with an empty stack
  obtain ⟨hv, hs⟩ := interpretChunk_shows hm.live c
  obtain ⟨hv', hs'⟩ := interpretChunk_shows hn.live c
  have hcapacity := capacity_interpretChunk hm.live c
  rw [hm.settings, hm.capacity] at hv hs
  rw [hn.settings, hn.capacity] at hv' hs'
  have hconsole := hs.console
  have hconsole' := hs'.console
  rw [hm.console, hm.settings] at hconsole
  rw [hn.console, hn.settings] at hconsole'
  refine ⟨hv.trans hv'.symm, ?_, ?_⟩
  · simp only [Machine.takeConsole, hconsole, hconsole']
  · exact ⟨hs.settings.trans hm.settings, hcapacity.trans hm.capacity,
      interpretChunk_live hm.live c, rfl⟩

end Machine.Idle

namespace Session

structure Ready (o : Options) (color : Bool) (st : Settings) (s : Session) : Prop where
  options : s.options = o
  color : s.color = color
  machine : s.machine.Idle st

/-- The answers are the same. A session is left unless the answer is a refusal, and then it is
ready for the next line. -/
structure Alike (o : Options) (color : Bool) (st : Settings) (r r' : Answer × Option Session) :
    Prop where
  same : r.1 = r'.1
  ready : ∀ s ∈ r.2, s.Ready o color st
  ended : r.2 = none ↔ ¬r.1.Exits

variable {o : Options} {color : Bool} {st : Settings} {s t : Session}

theorem alike_refused (r : Refusal) (stdout stderr : String) :
    Alike o color st (⟨.refused r, stdout, stderr⟩, none) (⟨.refused r, stdout, stderr⟩, none) where
  same := rfl
  ready := by simp
  ended := by simp [Answer.Exits]

theorem Ready.answer (hs : s.Ready o color st) (ht : t.Ready o color st) (source : Source)
    (shown : String) (v : Verdict) {m n : Machine} (hm : m.takeConsole.2.Idle st)
    (hn : m.takeConsole.1 = n.takeConsole.1) :
    Alike o color st (s.answer source shown v m) (t.answer source shown v n) := by
  simp only [Session.answer, hs.color, ht.color, ← hn]
  cases (Report.verdict color source v).refusal with
  | some r => exact alike_refused r _ _
  | none =>
    refine ⟨rfl, ?_, by simp [Answer.Exits]⟩
    rintro s' hs'
    cases hs'
    exact ⟨hs.options, rfl, hm⟩

theorem Ready.runSource (hs : s.Ready o color st) (ht : t.Ready o color st) (source : Source) :
    Alike o color st (s.runSource source) (t.runSource source) := by
  cases hc : compile source.text with
  | error errors =>
    rw [runSource_of_errors s hc, runSource_of_errors t hc]
    obtain ⟨hidle, htext⟩ := hs.machine.takeConsole
    obtain ⟨-, htext'⟩ := ht.machine.takeConsole
    exact hs.answer ht source "" _ hidle (htext.trans htext'.symm)
  | ok c =>
    have hpreview (u : Session) (hu : u.Ready o color st) : u.preview source.name c =
        if o.disassemble then (c.listing source.name).map (· ++ "\n") else .ok "" := by
      rw [preview, hu.options]
    by_cases hd : o.dump = true
    · rw [runSource_dumped s hc (hs.options ▸ hd), runSource_dumped t hc (ht.options ▸ hd)]
      refine ⟨rfl, ?_, by simp [Answer.Exits]⟩
      rintro s' hs'
      cases hs'
      exact hs
    · simp only [Session.runSource, hc, hs.options, ht.options, if_neg hd, hpreview s hs,
        hpreview t ht]
      split
      · exact alike_refused _ _ _
      · next shown _ =>
        obtain ⟨hv, htext, hidle⟩ := hs.machine.interpretChunk ht.machine c
        rcases hm : s.machine.interpretChunk c with ⟨v | v, m⟩ <;>
          rcases hn : t.machine.interpretChunk c with ⟨w | w, n⟩ <;>
          simp only [hm, hn, reduceCtorEq, Except.error.injEq, Except.ok.injEq] at hv htext hidle
        · subst hv
          dsimp only
          rw [htext]
          exact alike_refused _ _ _
        · subst hv
          exact hs.answer ht source shown v hidle htext

/-- A line that is not blank is answered as by a session without a past. -/
theorem Ready.runLine (hs : s.Ready o color st) (ht : t.Ready o color st) {line : String}
    (hline : line.toList.all isBlank = false) :
    Alike o color st (s.runLine line) (t.runSource ⟨.interactive, line⟩) := by
  obtain ⟨hsame, hready, hended⟩ := hs.runSource ht ⟨.interactive, line⟩
  simp only [Session.runLine, hline, Bool.false_eq_true, if_false]
  refine ⟨hsame, ?_, by simpa using hended⟩
  intro s' hs'
  obtain ⟨u, hu, rfl⟩ := Option.map_eq_some_iff.mp hs'
  obtain ⟨ho, hc, hm⟩ := hready u hu
  exact ⟨ho, hc, ⟨hm.settings, hm.capacity, hm.live, hm.console⟩⟩

end Session

/-- All the answers one after the other, after what has been answered before. -/
def Answer.andThen (before : Answer) (answers : List Answer) : Answer :=
  ⟨before.ending, before.stdout ++ String.join (answers.map Answer.stdout),
    before.stderr ++ String.join (answers.map Answer.stderr)⟩

theorem Answer.andThen_cons (before a : Answer) (answers : List Answer) :
    before.andThen (a :: answers) = (before.followedBy a).andThen answers := by
  simp [andThen, followedBy, String.join_cons, String.append_assoc]

/-- The lines that are run. -/
def filledLines (lines : List String) : List String := lines.filter (!·.toList.all isBlank)

namespace Session

variable {o : Options} {color : Bool} {st : Settings} {s t : Session}

theorem Ready.runLines (hs : s.Ready o color st) (ht : t.Ready o color st) (before : Answer)
    (lines : List String) :
    let alone := fun line => (t.runSource ⟨.interactive, line⟩).1
    ((∀ line ∈ filledLines lines, (alone line).Exits) →
      s.runLines before lines = before.andThen ((filledLines lines).map alone)) ∧
    ∀ done line rest, filledLines lines = done ++ line :: rest →
      (∀ earlier ∈ done, (alone earlier).Exits) → ¬(alone line).Exits →
      s.runLines before lines =
        { before.andThen ((done ++ [line]).map alone) with ending := (alone line).ending } := by
  intro alone
  -- every line is compared with a run of the one session `t`, while `s` goes on from line to line
  induction lines generalizing s before with
  | nil =>
    refine ⟨fun _ => by simp [Session.runLines, Answer.andThen, filledLines], ?_⟩
    intro done line rest hfilled
    simp [filledLines] at hfilled
  | cons line lines ih =>
    by_cases hblank : line.toList.all isBlank = true
    · have hfilled : filledLines (line :: lines) = filledLines lines := by
        simp [filledLines, hblank]
      have hrun : s.runLines before (line :: lines) = s.runLines before lines := by
        rw [Session.runLines, Session.runLine, if_pos hblank]
        simp [Answer.followedBy, Answer.empty]
      rw [hfilled, hrun]
      exact ih hs before
    · rw [Bool.not_eq_true] at hblank
      have hfilled : filledLines (line :: lines) = line :: filledLines lines := by
        simp [filledLines, hblank]
      obtain ⟨hsame, hready, hended⟩ := hs.runLine ht hblank
      rw [hfilled, Session.runLines]
      rcases hline : s.runLine line with ⟨a, next⟩
      rw [hline] at hsame hready hended
      obtain rfl : a = alone line := hsame
      cases next with
      | none =>
        have href : ¬(alone line).Exits := hended.mp rfl
        refine ⟨fun hall => absurd (hall line (by simp)) href, ?_⟩
        intro done other rest hsplit hdone _
        obtain rfl : done = [] := by
          cases done with
          | nil => rfl
          | cons first more =>
            obtain ⟨rfl, -⟩ := List.cons.inj hsplit
            exact absurd (hdone line (by simp)) href
        obtain ⟨rfl, -⟩ := List.cons.inj hsplit
        simp [Answer.andThen, Answer.followedBy]
      | some next =>
        have hne : (alone line).Exits := by
          by_contra href
          simpa using hended.mpr href
        obtain ⟨hall, hfirst⟩ := ih (hready next rfl) (before.followedBy (alone line))
        constructor
        · intro hlines
          rw [List.map_cons, Answer.andThen_cons]
          exact hall fun other hother => hlines other (by simp [hother])
        · intro done other rest hsplit hdone href
          cases done with
          | nil =>
            obtain ⟨rfl, -⟩ := List.cons.inj hsplit
            exact absurd hne href
          | cons first more =>
            obtain ⟨rfl, hrest⟩ := List.cons.inj hsplit
            rw [List.cons_append, List.map_cons, Answer.andThen_cons]
            exact hfirst more other rest hrest (fun l hl => hdone l (by simp [hl])) href

/-- A chunk that fits into a word is run to its end, and its verdict can be reported. -/
theorem Ready.exits_of_compiled (hs : s.Ready o color st) {source : Source} {c : Chunk}
    (hc : compile source.text = .ok c) (hw : c.code.size < Word.size) :
    (s.runSource source).1.Exits := by
  by_cases hd : s.options.dump = true
  · rw [runSource_dumped s hc hd]
    exact ⟨0, rfl⟩
  · obtain ⟨shown, hshown⟩ : ∃ shown, s.preview source.name c = .ok shown := by
      obtain ⟨listing, hl⟩ := Chunk.exists_listing hc hw source.name
      by_cases hlisted : s.options.disassemble = true
      · exact ⟨listing ++ "\n", by rw [preview, if_pos hlisted, hl]; rfl⟩
      · exact ⟨"", by rw [preview, if_neg hlisted]⟩
    have hlive := hs.machine.live
    have hsize (c' : Chunk) (hc' : compile source.text = .ok c') : c'.code.size < Word.size := by
      cases hc.symm.trans hc'
      exact hw
    obtain ⟨v, hv⟩ := Machine.interpret_answered hlive hsize
    rw [Machine.interpret_of_ok hlive hc] at hv
    obtain ⟨hending, -⟩ := Machine.interpretChunk_shows hlive c
    rw [hv] at hending
    have hreport : (Report.verdict s.color source v).refusal = none := by
      cases hend : (ContentMachine.run s.machine.settings.trace s.machine.stack.capacity c).1 with
      | halted | failed =>
        rw [hend] at hending
        cases hending
        rfl
      | refused r =>
        rw [hend] at hending
        cases hending
    rw [runSource_shown s hc (Bool.eq_false_iff.mpr hd) hshown]
    rcases hm : s.machine.interpretChunk c with ⟨r, m⟩
    obtain rfl : r = .ok v := by rw [hm] at hv; exact hv
    simp only [Session.answer, hreport]
    exact ⟨_, rfl⟩

/-- Only a mistake that no mark can be put under is not reported to its end. -/
theorem Ready.exits_iff (hs : s.Ready o color st) {source : Source}
    (hw : ∀ c, compile source.text = .ok c → c.code.size < Word.size) :
    (s.runSource source).1.Exits ↔ ∀ errors, compile source.text = .error errors →
      ∀ e ∈ errors, Report.MarkFits source.cut e := by
  cases hc : compile source.text with
  | ok c =>
    have hexits := hs.exits_of_compiled hc (hw c hc)
    simp [hexits]
  | error errors =>
    simp only [Except.error.injEq, forall_eq']
    constructor
    · intro hexits
      by_contra hnot
      obtain ⟨report, -, hrun⟩ := runSource_of_cutShort s hc hs.machine.console hnot
      rw [hrun] at hexits
      simp [Answer.Exits] at hexits
    · intro hall
      rw [runSource_of_fits s hc hs.machine.console hall]
      exact ⟨65, rfl⟩

/-- A source that is refused is so in the middle of the report of its mistakes. -/
theorem Ready.cutShort_of_refused (hs : s.Ready o color st) {source : Source}
    (hw : ∀ c, compile source.text = .ok c → c.code.size < Word.size)
    (h : ¬(s.runSource source).1.Exits) :
    ∃ errors report, compile source.text = .error errors ∧
      Report.CutShort color source.cut errors report ∧
      (s.runSource source).1 = ⟨.refused .fillTooWide, "", report⟩ := by
  rw [hs.exits_iff hw] at h
  simp only [not_forall] at h
  obtain ⟨errors, hc, e, he, hwide⟩ := h
  obtain ⟨report, hcut, hrun⟩ := runSource_of_cutShort s hc hs.machine.console
    fun hall => hwide (hall e he)
  exact ⟨errors, report, hc, hs.color ▸ hcut, congrArg Prod.fst hrun⟩

end Session

namespace CommandLine

variable {w : Surroundings} {o : Options} {st : Settings}

theorem ready_new (o : Options) (color : Bool) (st : Settings) :
    Session.Ready o color st ⟨o, color, (Machine.new st).init⟩ := ⟨rfl, rfl, .new st⟩

theorem run_of_lines {arguments : List String} (hread : Options.read arguments = .ok o)
    (hliteral : o.literal = none) (hfile : o.file = none) (hsettings : settings o w = .ok st)
    (hfits : st.capacity ≤ Stack.largestCapacity) (stdin : String) :
    run arguments w stdin = .ok (Session.runLines ⟨o, colored w, (Machine.new st).init⟩
      ⟨.exit 0, Session.banner, ""⟩ (textLines stdin)) := by
  simp only [run, hread, bind, Except.bind, start, hsettings, hliteral, hfile,
    session_ok _ _ hfits]

/-- A session shows its banner, and then what each line that is not blank shows in a session of
its own, and ends with status 0. A line that is refused ends it, after what that line shows. Such
is only a line with a mistake so far to the right that no mark can be put there: its errors are
reported up to that one. -/
theorem session_lines (arguments : List String) (w : Surroundings) (stdin : String) (o : Options)
    (st : Settings) (hread : Options.read arguments = .ok o) (hliteral : o.literal = none)
    (hfile : o.file = none) (hsettings : settings o w = .ok st) :
    let alone := fun line => runOnly (session o (colored w) st) ⟨.interactive, line⟩
    let lines := filledLines (textLines stdin)
    ∃ answer, run arguments w stdin = .ok answer ∧
    (Stack.largestCapacity < st.capacity → answer = ⟨.refused .capacityTooLarge, "", ""⟩) ∧
    (st.capacity ≤ Stack.largestCapacity →
      ((∀ line ∈ lines, (alone line).Exits) → answer = ⟨.exit 0,
        Session.banner ++ String.join (lines.map fun line => (alone line).stdout),
        String.join (lines.map fun line => (alone line).stderr)⟩) ∧
      (∀ done line rest, lines = done ++ line :: rest →
        (∀ earlier ∈ done, (alone earlier).Exits) → ¬(alone line).Exits →
        answer = ⟨(alone line).ending,
          Session.banner ++ String.join ((done ++ [line]).map fun line => (alone line).stdout),
          String.join ((done ++ [line]).map fun line => (alone line).stderr)⟩) ∧
      ∀ line, (∀ c, compile line = .ok c → c.code.size < Word.size) →
        ((alone line).Exits ↔ ∀ errors, compile line = .error errors →
          ∀ e ∈ errors, Report.MarkFits (Source.cut ⟨.interactive, line⟩) e) ∧
        (¬(alone line).Exits → ∃ errors report, compile line = .error errors ∧
          Report.CutShort (colored w) (Source.cut ⟨.interactive, line⟩) errors report ∧
          alone line = ⟨.refused .fillTooWide, "", report⟩)) := by
  intro alone lines
  by_cases hlarge : Stack.largestCapacity < st.capacity
  · refine ⟨⟨.refused .capacityTooLarge, "", ""⟩, ?_, fun _ => rfl, fun hfits => by omega⟩
    simp only [run, hread, bind, Except.bind, start, hsettings, hliteral, hfile,
      session_refused _ _ hlarge]
  have hfits : st.capacity ≤ Stack.largestCapacity := Nat.le_of_not_lt hlarge
  have hready := ready_new o (colored w) st
  refine ⟨_, run_of_lines hread hliteral hfile hsettings hfits stdin,
    fun h => absurd h hlarge, fun _ => ?_⟩
  have halone : alone = fun line =>
      (Session.runSource ⟨o, colored w, (Machine.new st).init⟩ ⟨.interactive, line⟩).1 := by
    funext line
    simp only [alone, session_ok _ _ hfits, runOnly]
  obtain ⟨hall, hfirst⟩ := hready.runLines hready ⟨.exit 0, Session.banner, ""⟩ (textLines stdin)
  rw [halone]
  refine ⟨fun hlines => ?_, fun done line rest hsplit hdone href => ?_, fun line hw => ?_⟩
  · rw [hall hlines]
    simp [Answer.andThen, lines, Function.comp_def]
  · rw [hfirst done line rest hsplit hdone href]
    simp [Answer.andThen, Function.comp_def]
  · exact ⟨hready.exits_iff hw, hready.cutShort_of_refused hw⟩

/-- A mistake, a fault that leaves a string on the stack, and the same string again. -/
theorem session_lines_faults :
    let w : Surroundings := ⟨fun _ => none, fun _ => .error .missing, fun _ => ""⟩
    let lines := ["1 +", "\"a\" + nil;", "print \"a\" == \"a\";"]
    let alone := fun line => runOnly (session Options.empty (colored w) Settings.default)
      ⟨.interactive, line⟩
    run [] w "1 +\n\"a\" + nil;\n \t\nprint \"a\" == \"a\";\n" =
      .ok ⟨.exit 0, Session.banner ++ String.join (lines.map fun line => (alone line).stdout),
        String.join (lines.map fun line => (alone line).stderr)⟩ := by
  intro w lines alone
  have hsettings : settings Options.empty w = .ok Settings.default := rfl
  have hfits : Settings.default.capacity ≤ Stack.largestCapacity := by decide
  have hsplit :
      filledLines (textLines "1 +\n\"a\" + nil;\n \t\nprint \"a\" == \"a\";\n") = lines := by
    decide +kernel
  obtain ⟨answer, hanswer, -, hrun⟩ := session_lines []
    w "1 +\n\"a\" + nil;\n \t\nprint \"a\" == \"a\";\n" Options.empty Settings.default rfl rfl rfl
    hsettings
  obtain ⟨hall, -, hexits⟩ := hrun hfits
  rw [hsplit] at hall
  rw [hanswer]
  refine congrArg Except.ok (hall fun line hline => ?_)
  have hsizes : lines.all (fun line =>
      (compile line).toOption.all (·.code.size < Word.size)) = true := by decide +kernel
  have hplaces : lines.all (fun line => (compileErrors line).all fun e =>
      e.place?.all (·.column.toNat ≤ Padding.widest)) = true := by decide +kernel
  rw [List.all_eq_true] at hsizes hplaces
  have hsize (c : Chunk) (hc : compile line = .ok c) : c.code.size < Word.size := by
    have hall := hsizes line hline
    simpa [hc, Except.toOption] using hall
  obtain ⟨hiff, -⟩ := hexits line hsize
  refine hiff.mpr fun errors he e hmem p hp _ => ?_
  have hall := hplaces line hline
  simp only [compileErrors, he, List.all_eq_true] at hall
  have hplace := hall e hmem
  rw [hp] at hplace
  simpa using hplace

/-- A line with a mistake after more blanks than a mark can be wide is the last one. -/
theorem run_blanks {n : Nat} (h : Padding.widest < n) (w : Surroundings) {line stdin : String}
    (hline : line.toList = List.replicate n ' ' ++ ['@']) {rest : List Char}
    (hstdin : stdin.toList = line.toList ++ '\n' :: rest)
    (hsettings : settings Options.empty w = .ok Settings.default) :
    run [] w stdin = .ok ⟨.refused .fillTooWide, Session.banner,
      blanksReport ⟨.interactive, line⟩ (colored w) n⟩ := by
  have hreturn : line.toList.getLast? ≠ some '\r' := by
    rw [hline, List.getLast?_concat]
    decide
  have hnewline : '\n' ∉ line.toList := by simp [hline]
  have hlines : textLines stdin = line :: (splitLines [] rest).map String.ofList := by
    rw [textLines, hstdin, splitLines_line hnewline, List.reverse_nil, List.nil_append, dropReturn,
      if_neg hreturn, List.map_cons, String.ofList_toList]
  have hblank : line.toList.all isBlank = false := by
    simp [hline, show isBlank '@' = false from rfl]
  have hfilled : filledLines (textLines stdin) =
      [] ++ line :: filledLines ((splitLines [] rest).map String.ofList) := by
    rw [hlines]
    exact List.filter_cons_of_pos (by simp [hblank])
  have hready := ready_new Options.empty (colored w) Settings.default
  have hrun : Session.runSource ⟨Options.empty, colored w, (Machine.new Settings.default).init⟩
      ⟨.interactive, line⟩ = _ := Session.runSource_blanks h rfl hline
  have hanswer := congrArg Prod.fst hrun
  obtain ⟨-, hend⟩ := hready.runLines hready ⟨.exit 0, Session.banner, ""⟩ (textLines stdin)
  rw [run_of_lines (o := Options.empty) rfl rfl rfl hsettings (by decide),
    hend [] line _ hfilled (by simp) (by simp [hanswer, Answer.Exits])]
  simp [hanswer, Answer.andThen]

theorem session_ended :
    let line := String.ofList (List.replicate 65540 ' ' ++ ['@'])
    let w : Surroundings := ⟨fun _ => none, fun _ => .error .missing, fun _ => ""⟩
    let report := "stackvm: lexical error: Unexpected character '@'.\n" ++
      "in <repl>, at line 1, column 65540:\n" ++ line ++ "\n"
    (∃ errors, compile line = .error errors) ∧
      run [] w (line ++ "\nprint 1;\n") =
        .ok ⟨.refused .fillTooWide, Session.banner, report⟩ := by
  intro line w report
  have hline : line.toList = List.replicate 65540 ' ' ++ ['@'] := String.toList_ofList
  have hstdin : (line ++ "\nprint 1;\n").toList = line.toList ++ '\n' :: "print 1;\n".toList :=
    String.toList_append
  refine ⟨⟨_, compile_blanks 65540⟩, ?_⟩
  rw [run_blanks (by decide) w hline hstdin rfl, blanksReport, Report.unmarked]
  have hfront : Report.headline false "lexical error" "Unexpected character '@'." ++
      ("in " ++ "<repl>" ++ ", at line " ++ toString 1 ++ ", column " ++ toString (65540 : Int) ++
        ":\n") =
      "stackvm: lexical error: Unexpected character '@'.\n" ++
        "in <repl>, at line 1, column 65540:\n" := by decide +kernel
  exact congrArg
    (fun front => Except.ok (Answer.mk _ Session.banner (front ++ line ++ "\n"))) hfront

end CommandLine

end ExprMachine
