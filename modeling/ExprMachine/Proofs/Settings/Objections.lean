import ExprMachine.Proofs.Settings.Layering

/-! What is wrong with the layers of the settings. It is looked for in a fixed order, and the first
thing that is found is reported. -/

namespace ExprMachine

/-! Objections have ranks, and the one of the least rank is reported. -/

section Checked

variable {ε α β : Type}

/-- A result for which there is no objection of a rank from `low` up to `high`, or else the error
of the first one. -/
def Checked (objects : Nat → ε → Prop) (low high : Nat) (holds : α → Prop) : Except ε α → Prop
  | .ok a => holds a ∧ ∀ rank e, low ≤ rank → rank < high → ¬ objects rank e
  | .error e => ∃ rank, low ≤ rank ∧ rank < high ∧ objects rank e ∧
      ∀ earlier e', low ≤ earlier → earlier < rank → ¬ objects earlier e'

variable {objects : Nat → ε → Prop} {low middle high rank : Nat}

theorem Checked.error {holds : α → Prop} {e : ε} (h : objects rank e) (hhigh : rank < high) :
    Checked objects rank high holds (.error e) :=
  ⟨rank, Nat.le_refl rank, hhigh, h, fun _ _ hl hlt => by omega⟩

theorem Checked.ok {holds : α → Prop} {a : α} (ha : holds a) (h : ∀ e, ¬ objects rank e) :
    Checked objects rank (rank + 1) holds (.ok a) := by
  refine ⟨ha, fun rank' e hl hh => ?_⟩
  obtain rfl : rank' = rank := by omega
  exact h e

/-- Checks that are made one after the other keep to the order of the ranks. -/
theorem Checked.bind {holds : α → Prop} {holds' : β → Prop} {r : Except ε α}
    {f : α → Except ε β} (h : Checked objects low middle holds r)
    (hf : ∀ a, holds a → Checked objects middle high holds' (f a)) (hlow : low ≤ middle)
    (hhigh : middle ≤ high) : Checked objects low high holds' (r >>= f) := by
  cases r with
  | error e =>
    obtain ⟨rank, hl, hm, hobject, hfirst⟩ := h
    exact ⟨rank, hl, Nat.lt_of_lt_of_le hm hhigh, hobject, hfirst⟩
  | ok a =>
    obtain ⟨ha, hnone⟩ := h
    have hnext := hf a ha
    change Checked objects low high holds' (f a)
    cases hfa : f a with
    | error e =>
      rw [hfa] at hnext
      obtain ⟨rank, hm, hh, hobject, hfirst⟩ := hnext
      refine ⟨rank, Nat.le_trans hlow hm, hh, hobject, fun earlier e' hl hlt => ?_⟩
      by_cases hearlier : earlier < middle
      · exact hnone earlier e' hl hearlier
      · exact hfirst earlier e' (Nat.le_of_not_lt hearlier) hlt
    | ok b =>
      rw [hfa] at hnext
      refine ⟨hnext.1, fun rank e hl hh => ?_⟩
      by_cases hrank : rank < middle
      · exact hnone rank e hl hrank
      · exact hnext.2 rank e (Nat.le_of_not_lt hrank) hh

theorem Checked.mono {holds holds' : α → Prop} {r : Except ε α}
    (h : Checked objects low high holds r) (himp : ∀ a, holds a → holds' a) :
    Checked objects low high holds' r := by
  cases r with
  | error e => exact h
  | ok a => exact ⟨himp a h.1, h.2⟩

end Checked

namespace Settings

theorem capacity_onto {l : Layer} {s : Settings} (h : 1 ≤ s.capacity) :
    (l.onto s).capacity = 0 ↔ l.capacity = some 0 := by
  have hs : s.capacity ≠ 0 := Nat.one_le_iff_ne_zero.mp h
  cases hl : l.capacity <;> simp [Layer.onto, hl, hs]

/-- A check that the capacity is not zero is the one that objects to a layer's zero if the
capacity was not zero before. -/
theorem checked_validate {objects : Nat → SettingsError → Prop} {holds : Settings → Prop}
    {rank : Nat} {s : Settings} (hs : holds s)
    (hobjects : ∀ e, objects rank e ↔ s.capacity = 0 ∧ e = .zeroCapacity) :
    Checked objects rank (rank + 1) (fun t => holds t ∧ 1 ≤ t.capacity) s.validate := by
  unfold validate
  split
  · next hzero => exact .error ((hobjects _).mpr ⟨hzero, rfl⟩) (Nat.lt_succ_self rank)
  · next hzero =>
    exact .ok ⟨hs, Nat.one_le_iff_ne_zero.mpr hzero⟩ fun e he => hzero ((hobjects e).mp he).1

/-- What a variable leaves of a setting: what its text stands for, if it has a value. -/
def Overridden {α : Type} (reads : List Char → α → Prop) (current : α) (given : Option String)
    (a : α) : Prop :=
  ∃ b, Option.Rel (Trims reads) given b ∧ b.getD current = a

theorem checked_override {α : Type} {read : List Char → Option α} {reads : List Char → α → Prop}
    (hread : ∀ {cs a}, read cs = some a ↔ reads cs a) {objects : Nat → SettingsError → Prop}
    {rank : Nat} {name : String} {current : α} {given : Option String}
    (hobjects : ∀ e, objects rank e ↔ ∃ value, given = some value ∧
      (∀ a, ¬ Trims reads value a) ∧ e = .invalidVariable name value) :
    Checked objects rank (rank + 1) (Overridden reads current given)
      (override name read current given) := by
  cases given with
  | none =>
    refine .ok ⟨none, .none, rfl⟩ fun e he => ?_
    obtain ⟨value, ⟨⟩, -⟩ := (hobjects e).mp he
  | some value =>
    unfold override
    dsimp only
    split
    · next a ha =>
      have htext : Trims reads value a := (trims_iff hread).mp ha
      refine .ok ⟨some a, .some htext, rfl⟩ fun e he => ?_
      obtain ⟨_, ⟨⟩, hnone, -⟩ := (hobjects e).mp he
      exact hnone a htext
    · next hnone =>
      refine .error ((hobjects _).mpr ⟨value, rfl, fun a htext => ?_, rfl⟩) (Nat.lt_succ_self rank)
      rw [(trims_iff hread).mpr htext] at hnone
      cases hnone

end Settings

namespace CommandLine

/-- What is wrong with a layer, with the rank in which it is looked for and the error that tells
of it. -/
inductive Objects (o : Options) (w : Surroundings) : Nat → SettingsError → Prop
  | unreadable {path : String} {fault : FileFault} (hfile : o.settingsFile = some path)
      (hread : w.readFile path = .error fault) : Objects o w 0 (.unreadable path fault)
  | malformed {path text : String} (hfile : o.settingsFile = some path)
      (hread : w.readFile path = .ok text) (htext : ∀ l, ¬ Layer.OfText text l) :
      Objects o w 1 (.malformed (w.explain text))
  | zeroInFile {path text : String} {l : Layer} (hfile : o.settingsFile = some path)
      (hread : w.readFile path = .ok text) (htext : Layer.OfText text l)
      (hzero : l.capacity = some 0) : Objects o w 2 .zeroCapacity
  | capacityVariable {value : String} (hvalue : w.environment "STACKVM_STACK_CAPACITY" = some value)
      (htext : ∀ n, ¬ Settings.Trims Settings.WordText value n) :
      Objects o w 3 (.invalidVariable "STACKVM_STACK_CAPACITY" value)
  | traceVariable {value : String} (hvalue : w.environment "STACKVM_TRACE" = some value)
      (htext : ∀ b, ¬ Settings.Trims Settings.FlagText value b) :
      Objects o w 4 (.invalidVariable "STACKVM_TRACE" value)
  | zeroInEnvironment {value : String}
      (hvalue : w.environment "STACKVM_STACK_CAPACITY" = some value)
      (hzero : Settings.Trims Settings.WordText value 0) : Objects o w 5 .zeroCapacity
  | zeroInOptions (hzero : o.capacity = some 0) : Objects o w 6 .zeroCapacity

section Checks

variable {o : Options} {w : Surroundings}

/-- The settings after the file: the defaults with what it sets. -/
def fileSettings (o : Options) (w : Surroundings) : Except SettingsError Settings :=
  match o.settingsFile with
  | none => .ok Settings.default
  | some path =>
    match w.readFile path with
    | .ok text => Settings.read w.explain text
    | .error fault => .error (.unreadable path fault)

theorem settings_eq (o : Options) (w : Surroundings) : settings o w =
    (fileSettings o w >>= fun base => base.withEnvironment w.environment >>= fun s =>
      s.withCommandLine o.capacity o.trace) := by
  unfold settings fileSettings
  cases o.settingsFile with
  | none => rfl
  | some path =>
    dsimp only
    cases w.readFile path <;> rfl

theorem checked_read {path text : String} (hfile : o.settingsFile = some path)
    (hread : w.readFile path = .ok text) : Checked (Objects o w) 1 3
      (fun s => (∃ l, Layer.OfText text l ∧ l.onto Settings.default = s) ∧ 1 ≤ s.capacity)
      (Settings.read w.explain text) := by
  have hsame {path' text' : String} (hfile' : o.settingsFile = some path')
      (hread' : w.readFile path' = .ok text') : text' = text := by
    obtain rfl := Option.some.inj (hfile.symm.trans hfile')
    exact (Except.ok.inj (hread.symm.trans hread')).symm
  have htext {s : Settings} : (Json.parse? text).bind Settings.ofJson? = some s ↔
      ∃ l, Layer.OfText text l ∧ l.onto Settings.default = s := by
    simp only [Option.bind_eq_some_iff, Settings.ofJson?_iff]
    constructor
    · rintro ⟨json, hparse, l, hl, hs⟩
      exact ⟨l, ⟨json, hparse, hl⟩, hs⟩
    · rintro ⟨l, ⟨json, hparse, hl⟩, hs⟩
      exact ⟨json, hparse, l, hl, hs⟩
  unfold Settings.read
  split
  · next s hs =>
    obtain ⟨l, hl, rfl⟩ := htext.mp hs
    have hparse : Checked (Objects o w) 1 2 (fun s => s = l.onto Settings.default)
        (.ok (l.onto Settings.default)) := by
      refine .ok rfl fun e he => ?_
      cases he with
      | malformed hfile' hread' hnone => exact hnone l (hsame hfile' hread' ▸ hl)
    have hvalid : ∀ s, s = l.onto Settings.default → Checked (Objects o w) 2 3
        (fun s => (∃ l, Layer.OfText text l ∧ l.onto Settings.default = s) ∧ 1 ≤ s.capacity)
        s.validate := by
      rintro _ rfl
      refine Settings.checked_validate ⟨l, hl, rfl⟩ fun e => ?_
      rw [Settings.capacity_onto (by decide)]
      constructor
      · intro he
        cases he with
        | zeroInFile hfile' hread' htext' hzero =>
          exact ⟨(hsame hfile' hread' ▸ htext').unique hl ▸ hzero, rfl⟩
      · rintro ⟨hzero, rfl⟩
        exact .zeroInFile hfile hread hl hzero
    exact hparse.bind hvalid (by omega) (by omega)
  · next hnone =>
    refine .error (.malformed hfile hread fun l hl => ?_) (by omega)
    rw [htext.mpr ⟨l, hl, rfl⟩] at hnone
    cases hnone

theorem checked_file (o : Options) (w : Surroundings) :
    Checked (Objects o w) 0 3
      (fun s => (∃ l, Layer.OfFile o w l ∧ l.onto Settings.default = s) ∧ 1 ≤ s.capacity)
      (fileSettings o w) := by
  unfold fileSettings
  split
  · next hfile =>
    refine ⟨⟨⟨.nothing, .absent hfile, rfl⟩, by decide⟩, fun rank e _ hrank hobjects => ?_⟩
    cases hobjects with
    | unreadable hfile' | malformed hfile' | zeroInFile hfile' =>
      exact nomatch hfile.symm.trans hfile'
    | capacityVariable | traceVariable | zeroInEnvironment | zeroInOptions => omega
  · next path hfile =>
    split
    · next text hread =>
      have hreadable : Checked (Objects o w) 0 1 (fun t => t = text) (.ok text) := by
        refine .ok rfl fun e he => ?_
        cases he with
        | unreadable hfile' hread' =>
          obtain rfl := Option.some.inj (hfile.symm.trans hfile')
          exact nomatch hread.symm.trans hread'
      have hrest : ∀ t, t = text → Checked (Objects o w) 1 3
          (fun s => (∃ l, Layer.OfFile o w l ∧ l.onto Settings.default = s) ∧ 1 ≤ s.capacity)
          (Settings.read w.explain t) := by
        rintro _ rfl
        refine (checked_read hfile hread).mono ?_
        rintro s ⟨⟨l, hl, rfl⟩, hs⟩
        exact ⟨⟨l, .text hfile hread hl, rfl⟩, hs⟩
      exact hreadable.bind hrest (by omega) (by omega)
    · next fault hread => exact .error (.unreadable hfile hread) (by omega)

theorem checked_environment {base : Settings} (hbase : 1 ≤ base.capacity) :
    Checked (Objects o w) 3 6
      (fun s => (∃ l, Layer.OfEnvironment w.environment l ∧ l.onto base = s) ∧ 1 ≤ s.capacity)
      (base.withEnvironment w.environment) := by
  have hcapacity : Checked (Objects o w) 3 4
      (Settings.Overridden Settings.WordText base.capacity (w.environment Settings.capacityVariable))
      (Settings.override Settings.capacityVariable Settings.word? base.capacity
        (w.environment Settings.capacityVariable)) := by
    refine Settings.checked_override Settings.word?_iff fun e => ⟨fun he => ?_, ?_⟩
    · cases he with
      | capacityVariable hvalue htext => exact ⟨_, hvalue, htext, rfl⟩
    · rintro ⟨value, hvalue, htext, rfl⟩
      exact .capacityVariable hvalue htext
  have htrace : Checked (Objects o w) 4 5
      (Settings.Overridden Settings.FlagText base.trace (w.environment Settings.traceVariable))
      (Settings.override Settings.traceVariable Settings.flag? base.trace
        (w.environment Settings.traceVariable)) := by
    refine Settings.checked_override Settings.flag?_iff fun e => ⟨fun he => ?_, ?_⟩
    · cases he with
      | traceVariable hvalue htext => exact ⟨_, hvalue, htext, rfl⟩
    · rintro ⟨value, hvalue, htext, rfl⟩
      exact .traceVariable hvalue htext
  refine hcapacity.bind ?_ (by omega) (by omega)
  rintro _ ⟨capacity, hc, rfl⟩
  refine htrace.bind ?_ (by omega) (by omega)
  rintro _ ⟨trace, ht, rfl⟩
  have hl : Layer.OfEnvironment w.environment ⟨capacity, trace, none⟩ := ⟨hc, ht, rfl⟩
  refine Settings.checked_validate ⟨_, hl, rfl⟩ fun e => ?_
  have honto := Settings.capacity_onto (l := ⟨capacity, trace, none⟩) hbase
  rw [show capacity.getD base.capacity = 0 ↔ capacity = some 0 from honto]
  constructor
  · intro he
    cases he with
    | zeroInEnvironment hvalue hzero =>
      have hrel := rel_some_iff.mpr ⟨_, hvalue, hzero⟩
      exact ⟨rel_unique (Settings.trims_iff Settings.word?_iff) hc hrel, rfl⟩
  · rintro ⟨rfl, rfl⟩
    obtain ⟨value, hvalue, hzero⟩ := rel_some_iff.mp hc
    exact .zeroInEnvironment hvalue hzero

theorem checked_options {s : Settings} (hs : 1 ≤ s.capacity) :
    Checked (Objects o w) 6 7 (fun t => (Layer.ofOptions o).onto s = t ∧ 1 ≤ t.capacity)
      (s.withCommandLine o.capacity o.trace) := by
  have honto : ({ s with capacity := o.capacity.getD s.capacity, trace := s.trace || o.trace } :
      Settings) = (Layer.ofOptions o).onto s := by
    cases htrace : o.trace <;> simp [Layer.onto, Layer.ofOptions, htrace]
  rw [Settings.withCommandLine, honto]
  refine Settings.checked_validate rfl fun e => ?_
  rw [Settings.capacity_onto hs]
  constructor
  · intro he
    cases he with
    | zeroInOptions hzero => exact ⟨hzero, rfl⟩
  · rintro ⟨hzero, rfl⟩
    exact .zeroInOptions hzero

theorem checked_settings (o : Options) (w : Surroundings) :
    Checked (Objects o w) 0 7
      (fun s => ∃ file environment, Layer.OfFile o w file ∧
        Layer.OfEnvironment w.environment environment ∧
        Layer.Latest [.defaults, file, environment, .ofOptions o] s ∧ 1 ≤ s.capacity)
      (settings o w) := by
  rw [settings_eq]
  refine (checked_file o w).bind ?_ (by omega) (by omega)
  rintro _ ⟨⟨file, hfile, rfl⟩, hbase⟩
  refine (checked_environment hbase).bind ?_ (by omega) (by omega)
  rintro _ ⟨⟨environment, henvironment, rfl⟩, hs⟩
  refine (checked_options hs).mono ?_
  rintro _ ⟨rfl, hcapacity⟩
  refine ⟨file, environment, hfile, henvironment, ?_, hcapacity⟩
  exact ((Layer.latest_defaults.concat file).concat environment).concat (.ofOptions o)

theorem Objects.rank_lt {rank : Nat} {e : SettingsError} (h : Objects o w rank e) : rank < 7 := by
  cases h <;> decide

/-- Each rank has one objection at most. -/
theorem Objects.unique {rank : Nat} {e e' : SettingsError} (h : Objects o w rank e)
    (h' : Objects o w rank e') : e = e' := by
  cases h with
  | unreadable hfile hread =>
    cases h' with
    | unreadable hfile' hread' =>
      obtain rfl := Option.some.inj (hfile.symm.trans hfile')
      rw [Except.error.inj (hread.symm.trans hread')]
  | malformed hfile hread =>
    cases h' with
    | malformed hfile' hread' =>
      obtain rfl := Option.some.inj (hfile.symm.trans hfile')
      rw [Except.ok.inj (hread.symm.trans hread')]
  | zeroInFile => cases h'; rfl
  | capacityVariable hvalue =>
    cases h' with
    | capacityVariable hvalue' => rw [Option.some.inj (hvalue.symm.trans hvalue')]
  | traceVariable hvalue =>
    cases h' with
    | traceVariable hvalue' => rw [Option.some.inj (hvalue.symm.trans hvalue')]
  | zeroInEnvironment => cases h'; rfl
  | zeroInOptions => cases h'; rfl

theorem settings_error_iff (o : Options) (w : Surroundings) (e : SettingsError) :
    settings o w = .error e ↔
      ∃ rank, Objects o w rank e ∧ ∀ earlier < rank, ∀ e', ¬ Objects o w earlier e' := by
  have h := checked_settings o w
  constructor
  · intro hs
    rw [hs] at h
    obtain ⟨rank, -, -, hobject, hfirst⟩ := h
    exact ⟨rank, hobject, fun earlier hlt e' => hfirst earlier e' (Nat.zero_le _) hlt⟩
  · rintro ⟨rank, hobject, hfirst⟩
    cases hs : settings o w with
    | ok s =>
      rw [hs] at h
      exact absurd hobject (h.2 rank e (Nat.zero_le _) hobject.rank_lt)
    | error e' =>
      rw [hs] at h
      obtain ⟨rank', -, -, hobject', hfirst'⟩ := h
      have hrank : rank = rank' := by
        rcases Nat.lt_trichotomy rank rank' with hlt | heq | hlt
        · exact absurd hobject (hfirst' rank e (Nat.zero_le _) hlt)
        · exact heq
        · exact absurd hobject' (hfirst rank' hlt e')
      subst hrank
      rw [hobject'.unique hobject]

theorem settings_ok_iff (o : Options) (w : Surroundings) (s : Settings) :
    settings o w = .ok s ↔
      (∀ rank e, ¬ Objects o w rank e) ∧ 1 ≤ s.capacity ∧ ∃ file environment,
        Layer.OfFile o w file ∧ Layer.OfEnvironment w.environment environment ∧
        Layer.Latest [.defaults, file, environment, .ofOptions o] s := by
  have h := checked_settings o w
  constructor
  · intro hs
    rw [hs] at h
    obtain ⟨⟨file, environment, hfile, henvironment, hlatest, hcapacity⟩, hnone⟩ := h
    exact ⟨fun rank e hobject => hnone rank e (Nat.zero_le _) hobject.rank_lt hobject, hcapacity,
      file, environment, hfile, henvironment, hlatest⟩
  · rintro ⟨hnone, -, file, environment, hfile, henvironment, hlatest⟩
    cases hs : settings o w with
    | error e =>
      rw [hs] at h
      obtain ⟨rank, -, -, hobject, -⟩ := h
      exact absurd hobject (hnone rank e)
    | ok s' =>
      rw [hs] at h
      obtain ⟨⟨file', environment', hfile', henvironment', hlatest', -⟩, -⟩ := h
      obtain rfl := hfile.unique hfile'
      obtain rfl := henvironment.unique henvironment'
      rw [hlatest.unique hlatest']

end Checks

/-- The capacity among the options is read as a word. -/
theorem capacity_setCapacity (text : String) :
    (Options.empty.setCapacity text).bind Options.capacity = Settings.word? text.toList := by
  unfold Options.setCapacity
  cases Settings.word? text.toList <;> rfl

/-- A call has settings exactly if there is no objection to a layer. Each field is then the one of
the last layer that sets it, of the defaults, the file, the environment and the command line, and
the capacity is at least one. Otherwise the error is that of the first objection. Digits are read
as the number that they stand for, however many there are, or not at all if that is no word. -/
theorem settings_layered (o : Options) (w : Surroundings) :
    (∀ e, settings o w = .error e ↔
      ∃ rank, Objects o w rank e ∧ ∀ earlier < rank, ∀ e', ¬ Objects o w earlier e') ∧
    (∀ s, settings o w = .ok s ↔
      (∀ rank e, ¬ Objects o w rank e) ∧ 1 ≤ s.capacity ∧ ∃ file environment,
        Layer.OfFile o w file ∧ Layer.OfEnvironment w.environment environment ∧
        Layer.Latest [.defaults, file, environment, .ofOptions o] s) ∧
    ∀ digits n, AllDigits digits → digits ≠ [] →
      let Stands := Nat.ofDigitChars 10 digits 0 = n ∧ n < Word.size
      (Settings.word? digits = some n ↔ Stands) ∧
      (Settings.word? ('+' :: digits) = some n ↔ Stands) ∧
      ((Options.empty.setCapacity (String.ofList digits)).bind Options.capacity = some n ↔
        Stands) ∧
      (Json.toNat? Word.size (.number (String.ofList digits)) = some n ↔ Stands) := by
  refine ⟨settings_error_iff o w, settings_ok_iff o w, fun digits n hdigits hne => ?_⟩
  have hword : Settings.word? digits = some n ↔
      Nat.ofDigitChars 10 digits 0 = n ∧ n < Word.size := by
    rw [Settings.word?_iff, Settings.wordText_digits hdigits hne]
  refine ⟨hword, ?_, ?_, ?_⟩
  · rw [Settings.word?_iff, Settings.wordText_plus hdigits hne]
  · rwa [capacity_setCapacity, String.toList_ofList]
  · rw [Json.toNat?_iff, Json.writes_digits hdigits]

/-- The environment overrides the file's capacity. Of a bad flag and a capacity of zero, it is the
flag that is reported. -/
theorem settings_layered_overridden :
    let o : Options := { Options.empty with settingsFile := some "vm.json", trace := true }
    let read : String → Except FileFault String := fun _ =>
      .ok "\x7b\"echo_output\": false, \"stack_capacity\": 16\x7d"
    let w : Surroundings :=
      ⟨fun name => if name = "STACKVM_STACK_CAPACITY" then some " +08\n" else none, read,
        fun _ => ""⟩
    let w' : Surroundings :=
      ⟨fun name => some (if name = "STACKVM_STACK_CAPACITY" then "0" else "maybe"), read,
        fun _ => ""⟩
    let digits := "18446744073709551632".toList
    (settings o w = .ok ⟨8, true, false⟩ ∧ ∃ file environment, Layer.OfFile o w file ∧
      Layer.OfEnvironment w.environment environment ∧
      Layer.Latest [.defaults, file, environment, .ofOptions o] ⟨8, true, false⟩) ∧
    (∃ rank, Objects o w' rank (.invalidVariable "STACKVM_TRACE" "maybe") ∧
      ∀ earlier < rank, ∀ e', ¬ Objects o w' earlier e') ∧
    AllDigits digits ∧ digits ≠ [] ∧ Settings.word? digits ≠ some 16 := by
  intro o read w w' digits
  have hok : settings o w = .ok ⟨8, true, false⟩ := by decide +kernel
  have herror : settings o w' = .error (.invalidVariable "STACKVM_TRACE" "maybe") := by
    decide +kernel
  have hdigits : AllDigits digits := List.all_eq_true.mp (by decide +kernel)
  have hne : digits ≠ [] := by decide +kernel
  obtain ⟨-, -, hlayers⟩ := ((settings_layered o w).2.1 _).mp hok
  have hread := (settings_layered o w).2.2 digits 16 hdigits hne
  refine ⟨⟨hok, hlayers⟩, ((settings_layered o w').1 _).mp herror, hdigits, hne, fun h => ?_⟩
  exact absurd (hread.1.mp h).1 (by decide +kernel)

end CommandLine

end ExprMachine
