import Mathlib.Data.Option.Basic
import ExprMachine.CommandLine.Session
import ExprMachine.Proofs.Json.Records
import ExprMachine.Proofs.Settings.Values

/-! The settings in layers: the defaults, a file, the environment and the command line. A layer
sets some of the fields, and the last layer counts that sets a field. -/

namespace ExprMachine

/-- What a layer sets. -/
structure Layer where
  capacity : Option Nat
  trace : Option Bool
  echo : Option Bool

namespace Layer

def nothing : Layer := ⟨none, none, none⟩

def defaults : Layer := ⟨some 256, some false, some true⟩

/-- The command line can only turn tracing on. -/
def ofOptions (o : Options) : Layer := ⟨o.capacity, if o.trace then some true else none, none⟩

/-- Settings with those replaced that a layer sets. -/
def onto (l : Layer) (s : Settings) : Settings :=
  ⟨l.capacity.getD s.capacity, l.trace.getD s.trace, l.echo.getD s.echo⟩

/-- Each field is as the last layer has it that sets it. -/
structure Latest (layers : List Layer) (s : Settings) : Prop where
  capacity : (layers.filterMap Layer.capacity).getLast? = some s.capacity
  trace : (layers.filterMap Layer.trace).getLast? = some s.trace
  echo : (layers.filterMap Layer.echo).getLast? = some s.echo

theorem getLast?_filterMap_concat {α : Type} (field : Layer → Option α) (layers : List Layer)
    (l : Layer) : ((layers ++ [l]).filterMap field).getLast? =
      (field l).or (layers.filterMap field).getLast? := by
  rw [List.filterMap_append, List.getLast?_append]
  cases h : field l with
  | none => simp [h]
  | some a => simp [h]

theorem latest_defaults : Latest [defaults] Settings.default := ⟨rfl, rfl, rfl⟩

theorem Latest.concat {layers : List Layer} {s : Settings} (h : Latest layers s) (l : Layer) :
    Latest (layers ++ [l]) (l.onto s) := by
  constructor
  · rw [getLast?_filterMap_concat, h.capacity, Option.or_some]
    rfl
  · rw [getLast?_filterMap_concat, h.trace, Option.or_some]
    rfl
  · rw [getLast?_filterMap_concat, h.echo, Option.or_some]
    rfl

theorem Latest.unique {layers : List Layer} {s s' : Settings} (h : Latest layers s)
    (h' : Latest layers s') : s = s' := by
  obtain ⟨capacity, trace, echo⟩ := s
  obtain ⟨capacity', trace', echo'⟩ := s'
  obtain rfl : capacity = capacity' := Option.some.inj (h.capacity.symm.trans h'.capacity)
  obtain rfl : trace = trace' := Option.some.inj (h.trace.symm.trans h'.trace)
  obtain rfl : echo = echo' := Option.some.inj (h.echo.symm.trans h'.echo)
  rfl

/-- A document that is a record of settings, each of which has a value of its kind if it has
any. -/
structure OfJson (json : Json) (l : Layer) : Prop where
  record : json.IsRecord ["stack_capacity", "trace_execution", "echo_output"]
  capacity : Option.Rel (fun v n => v.Writes n ∧ n < Word.size) (json.given? "stack_capacity" 0)
    l.capacity
  trace : Option.Rel (fun v b => v = .boolean b) (json.given? "trace_execution" 1) l.trace
  echo : Option.Rel (fun v b => v = .boolean b) (json.given? "echo_output" 2) l.echo

/-- The text of a document that sets what the layer sets. -/
def OfText (text : String) (l : Layer) : Prop :=
  ∃ json, Json.parse? text = some json ∧ OfJson json l

/-- What the variables of the environment set that have a value. -/
structure OfEnvironment (lookup : String → Option String) (l : Layer) : Prop where
  capacity : Option.Rel (Settings.Trims Settings.WordText) (lookup "STACKVM_STACK_CAPACITY")
    l.capacity
  trace : Option.Rel (Settings.Trims Settings.FlagText) (lookup "STACKVM_TRACE") l.trace
  echo : l.echo = none

/-- What the settings file sets, if there is one that can be read. -/
inductive OfFile (o : Options) (w : Surroundings) : Layer → Prop
  | absent (hfile : o.settingsFile = none) : OfFile o w nothing
  | text {path text : String} {l : Layer} (hfile : o.settingsFile = some path)
      (hread : w.readFile path = .ok text) (htext : OfText text l) : OfFile o w l

end Layer

section Reading

variable {α β : Type} {read : α → Option β} {reads : α → β → Prop}

theorem rel_of_reads (h : ∀ {a b}, read a = some b ↔ reads a b) {given : Option α} {b : Option β}
    (hb : Option.Rel reads given b) : given.map read = b.map some := by
  cases hb with
  | some hr => exact congrArg some (h.mpr hr)
  | none => rfl

theorem rel_some_iff {given : Option α} {b : β} :
    Option.Rel reads given (some b) ↔ ∃ a, given = some a ∧ reads a b := by
  constructor
  · rintro ⟨hr⟩
    exact ⟨_, rfl, hr⟩
  · rintro ⟨a, rfl, hr⟩
    exact .some hr

/-- A value has one reading at most. -/
theorem rel_unique (h : ∀ {a b}, read a = some b ↔ reads a b) {given : Option α}
    {b b' : Option β} (hb : Option.Rel reads given b) (hb' : Option.Rel reads given b') :
    b = b' :=
  Option.map_injective (Option.some_injective β)
    ((rel_of_reads h hb).symm.trans (rel_of_reads h hb'))

end Reading

namespace Settings

theorem field?_iff {α : Type} {read : Json → Option α} {reads : Json → α → Prop}
    (h : ∀ {v a}, read v = some a ↔ reads v a) {default a : α} {given : Option Json} :
    field? default read given = some a ↔ ∃ b, Option.Rel reads given b ∧ b.getD default = a := by
  cases given with
  | none =>
    constructor
    · rintro ⟨⟩
      exact ⟨none, .none, rfl⟩
    · rintro ⟨_, ⟨⟩, rfl⟩
      rfl
  | some v =>
    constructor
    · exact fun ha => ⟨some a, .some (h.mp ha), rfl⟩
    · rintro ⟨_, ⟨hr⟩, rfl⟩
      exact h.mpr hr

theorem readFlag?_iff {v : Json} {b : Bool} : readFlag? v = some b ↔ v = .boolean b := by
  cases v <;> simp [readFlag?]

theorem ofJson?_iff {json : Json} {s : Settings} :
    ofJson? json = some s ↔ ∃ l, Layer.OfJson json l ∧ l.onto default = s := by
  have hgiven : (["stack_capacity", "trace_execution", "echo_output"].zipIdx.map fun member =>
      json.given? member.1 member.2) = [json.given? "stack_capacity" 0,
        json.given? "trace_execution" 1, json.given? "echo_output" 2] := rfl
  simp only [ofJson?, Option.bind_eq_bind, Option.bind_eq_some_iff, Json.record?_iff, hgiven]
  constructor
  · rintro ⟨_, ⟨hrecord, rfl⟩, h⟩
    simp only [Option.bind_eq_some_iff, field?_iff Json.toNat?_iff, field?_iff readFlag?_iff] at h
    obtain ⟨_, ⟨capacity, hcapacity, rfl⟩, _, ⟨trace, htrace, rfl⟩, _, ⟨echo, hecho, rfl⟩, ⟨⟩⟩ := h
    exact ⟨⟨capacity, trace, echo⟩, ⟨hrecord, hcapacity, htrace, hecho⟩, rfl⟩
  · rintro ⟨l, ⟨hrecord, hcapacity, htrace, hecho⟩, rfl⟩
    refine ⟨_, ⟨hrecord, rfl⟩, ?_⟩
    simp only [Option.bind_eq_some_iff, field?_iff Json.toNat?_iff, field?_iff readFlag?_iff]
    exact ⟨_, ⟨_, hcapacity, rfl⟩, _, ⟨_, htrace, rfl⟩, _, ⟨_, hecho, rfl⟩, rfl⟩

end Settings

namespace Layer

theorem OfJson.unique {json : Json} {l l' : Layer} (h : OfJson json l) (h' : OfJson json l') :
    l = l' := by
  obtain ⟨capacity, trace, echo⟩ := l
  obtain ⟨capacity', trace', echo'⟩ := l'
  obtain rfl : capacity = capacity' := rel_unique Json.toNat?_iff h.capacity h'.capacity
  obtain rfl : trace = trace' := rel_unique Settings.readFlag?_iff h.trace h'.trace
  obtain rfl : echo = echo' := rel_unique Settings.readFlag?_iff h.echo h'.echo
  rfl

theorem OfText.unique {text : String} {l l' : Layer} (h : OfText text l) (h' : OfText text l') :
    l = l' := by
  obtain ⟨json, hparse, hjson⟩ := h
  obtain ⟨json', hparse', hjson'⟩ := h'
  obtain rfl := Option.some.inj (hparse.symm.trans hparse')
  exact hjson.unique hjson'

theorem OfFile.unique {o : Options} {w : Surroundings} {l l' : Layer} (h : OfFile o w l)
    (h' : OfFile o w l') : l = l' := by
  cases h with
  | absent hfile =>
    cases h' with
    | absent => rfl
    | text hfile' => exact nomatch hfile.symm.trans hfile'
  | text hfile hread htext =>
    cases h' with
    | absent hfile' => exact nomatch hfile.symm.trans hfile'
    | text hfile' hread' htext' =>
      obtain rfl := Option.some.inj (hfile.symm.trans hfile')
      obtain rfl := Except.ok.inj (hread.symm.trans hread')
      exact htext.unique htext'

theorem OfEnvironment.unique {lookup : String → Option String} {l l' : Layer}
    (h : OfEnvironment lookup l) (h' : OfEnvironment lookup l') : l = l' := by
  obtain ⟨capacity, trace, echo⟩ := l
  obtain ⟨capacity', trace', echo'⟩ := l'
  obtain rfl : capacity = capacity' :=
    rel_unique (Settings.trims_iff Settings.word?_iff) h.capacity h'.capacity
  obtain rfl : trace = trace' :=
    rel_unique (Settings.trims_iff Settings.flag?_iff) h.trace h'.trace
  obtain rfl : echo = echo' := h.echo.trans h'.echo.symm
  rfl

end Layer

end ExprMachine
