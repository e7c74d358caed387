import ExprMachine.Proofs.Chunk.Stored
import ExprMachine.Proofs.Chunk.Tables
import ExprMachine.Proofs.Json.Records
import ExprMachine.Proofs.Machine.Values

/-! Sums of counts. Each is the sum as it is or is refused, and it is refused exactly if it is no
word. A chunk file may hold any words as counts, so it may hold counts whose sum is refused. -/

namespace ExprMachine

theorem Word.add_eq_ite (a b : Nat) :
    Word.add a b = if a + b < Word.size then .ok (a + b) else .error .sumTooLarge := rfl

theorem Run.fits_of_ofJson? {json : Json} {r : Run} (h : ofJson? json = some r) : r.Fits := by
  unfold ofJson? at h
  split at h
  · split at h
    · next hline hcount =>
      cases h
      exact ⟨(Json.toNat?_iff.mp hline).2, (Json.toNat?_iff.mp hcount).2⟩
    · cases h
  · cases h

namespace LineTable

variable {t : LineTable}

/-- How many bytes the first `k` runs count. -/
def countTo (t : LineTable) (k : Nat) : Nat :=
  ((t.runs.toList.take k).map Run.count).sum

theorem countTo_succ {k : Nat} (h : k < t.runs.size) :
    t.countTo (k + 1) = t.countTo k + t.runs[k].count := by
  rw [countTo, List.take_succ_eq_append_getElem (by simpa using h)]
  simp [countTo]

theorem countTo_mono {k l : Nat} (h : k ≤ l) : t.countTo k ≤ t.countTo l := by
  obtain ⟨n, rfl⟩ := Nat.exists_eq_add_of_le h
  rw [countTo, countTo, List.take_add, List.map_append, List.sum_append]
  exact Nat.le_add_right _ _

theorem countTo_size : t.countTo t.runs.size = t.total := by
  rw [countTo, total, List.take_of_length_le (by simp)]
  induction t.runs.toList with
  | nil => rfl
  | cons run runs ih => rw [List.map_cons, List.sum_cons, List.foldr_cons, ih]

/-- To find an offset, a run is looked at that ends where no word does. -/
def PassesWord (t : LineTable) (offset : Nat) : Prop :=
  ∃ k < t.runs.size, t.countTo k ≤ offset ∧ Word.size ≤ t.countTo (k + 1)

instance (t : LineTable) (offset : Nat) : Decidable (t.PassesWord offset) :=
  inferInstanceAs (Decidable (∃ k < t.runs.size, _))

/-- A search in the last `left` runs is refused by the first of them that ends at no word, if it
gets there. -/
theorem lineFrom?_error_iff {offset left : Nat} (hl : left ≤ t.runs.size)
    (hs : t.countTo (t.runs.size - left) ≤ offset) (e : Refusal) :
    t.lineFrom? offset left (t.countTo (t.runs.size - left)) = .error e ↔
      e = .sumTooLarge ∧ ∃ k, t.runs.size - left ≤ k ∧ k < t.runs.size ∧
        t.countTo k ≤ offset ∧ Word.size ≤ t.countTo (k + 1) := by
  induction left with
  | zero =>
    refine iff_of_false (by simp [lineFrom?]) ?_
    rintro ⟨-, k, hk, hlt, -⟩
    omega
  | succ left ih =>
    obtain ⟨j, hj⟩ : ∃ j, t.runs.size - (left + 1) = j := ⟨_, rfl⟩
    have hlt : j < t.runs.size := by omega
    have hnext : t.runs.size - left = j + 1 := by omega
    rw [hj] at hs ⊢
    rw [lineFrom?, hj, Array.getElem?_eq_getElem hlt]
    dsimp only
    rw [← countTo_succ hlt]
    split
    · next hpast =>
      refine ⟨fun h => ?_, fun h => congrArg Except.error h.1.symm⟩
      cases h
      exact ⟨rfl, j, Nat.le_refl j, hlt, hs, hpast⟩
    · next hword =>
      -- The run at `j` ends at a word, so it is a later one that refuses.
      have hlater {k : Nat} (hk : j ≤ k) (hsize : Word.size ≤ t.countTo (k + 1)) : j + 1 ≤ k := by
        by_contra hne
        obtain rfl : k = j := by omega
        exact hword hsize
      split
      · next hfound =>
        refine iff_of_false (by simp) ?_
        rintro ⟨-, k, hk, -, hoffset, hsize⟩
        have hmono := t.countTo_mono (hlater hk hsize)
        omega
      · next hbefore =>
        rw [hnext] at ih
        rw [ih (by omega) (by omega)]
        refine and_congr_right fun _ => exists_congr fun k => ?_
        constructor
        · rintro ⟨hk, hrest⟩
          exact ⟨by omega, hrest⟩
        · rintro ⟨hk, hlt, hoffset, hsize⟩
          exact ⟨hlater hk hsize, hlt, hoffset, hsize⟩

theorem lineAt?_eq_ite (t : LineTable) (offset : Nat) : t.lineAt? offset =
    if t.PassesWord offset then .error .sumTooLarge else .ok t.byteLines[offset]? := by
  have hstart : t.countTo (t.runs.size - t.runs.size) = 0 := by
    rw [Nat.sub_self]
    rfl
  have herror := lineFrom?_error_iff (Nat.le_refl t.runs.size)
    (show t.countTo (t.runs.size - t.runs.size) ≤ offset by rw [hstart]; exact Nat.zero_le _)
  rw [hstart, Nat.sub_self] at herror
  split
  · next h =>
    obtain ⟨k, hk, hpast⟩ := h
    exact (herror .sumTooLarge).mpr ⟨rfl, k, Nat.zero_le k, hk, hpast⟩
  · next h =>
    cases hr : t.lineAt? offset with
    | error e =>
      obtain ⟨-, k, -, hk, hpast⟩ := (herror e).mp hr
      exact absurd ⟨k, hk, hpast⟩ h
    | ok r =>
      have hline := t.lineFrom?_of_ok (Nat.le_refl _) (Nat.zero_le offset) hr
      rw [Nat.sub_self, List.drop_zero, Nat.sub_zero] at hline
      rw [hline, byteLines]

theorem size_eq_ite (t : LineTable) :
    t.size = if t.total < Word.size then .ok t.total else .error .sumTooLarge := by
  have h (runs : List Run) (sum : Nat) (hs : sum < Word.size) :
      runs.foldlM (fun sum run => Word.add sum run.count) sum =
        if sum + runs.foldr (fun run n => run.count + n) 0 < Word.size then
          .ok (sum + runs.foldr (fun run n => run.count + n) 0)
        else .error .sumTooLarge := by
    induction runs generalizing sum with
    | nil => exact (if_pos hs).symm
    | cons run runs ih =>
      rw [List.foldlM_cons, List.foldr_cons, ← Nat.add_assoc, Word.add_eq_ite]
      split
      · next hword => exact ih (sum + run.count) hword
      · next hpast =>
        rw [if_neg (by omega)]
        rfl
  have ht := h t.runs.toList 0 (by decide)
  rwa [Nat.zero_add] at ht

theorem pushChecked_eq_ite (t : LineTable) (line : Nat) : t.pushChecked line =
    if ∃ run ∈ t.runs.back?, run.line = line ∧ Word.size ≤ run.count + 1 then .error .sumTooLarge
    else .ok (t.push line) := by
  unfold pushChecked
  cases t.runs.back? with
  | none => simp
  | some run =>
    simp only [Option.mem_some_iff, exists_eq_left', Word.add_eq_ite]
    by_cases hline : run.line = line
    · simp only [hline, if_true, true_and]
      split <;> split <;> first | rfl | omega
    · simp [hline]

/-- The counts are no word together exactly if some word is an offset that cannot be found. -/
theorem size_le_total_iff (t : LineTable) :
    Word.size ≤ t.total ↔ ∃ offset < Word.size, t.PassesWord offset := by
  rw [← countTo_size]
  constructor
  · intro h
    have hex : ∃ k, Word.size ≤ t.countTo k := ⟨t.runs.size, h⟩
    have hpast := Nat.find_spec hex
    have hle := Nat.find_min' hex h
    cases hk : Nat.find hex with
    | zero =>
      rw [hk] at hpast
      exact absurd hpast (by simp [countTo, Word.size, UInt64.size])
    | succ k =>
      have hword : t.countTo k < Word.size :=
        Nat.lt_of_not_le (Nat.find_min hex (hk ▸ Nat.lt_succ_self k))
      rw [hk] at hpast hle
      exact ⟨t.countTo k, hword, k, hle, Nat.le_refl _, hpast⟩
  · rintro ⟨-, -, k, hk, -, hpast⟩
    exact Nat.le_trans hpast (countTo_mono hk)

theorem fits_of_ofJson? {json : Json} (h : ofJson? json = some t) : t.Fits := by
  simp only [ofJson?, Option.bind_eq_bind, Option.bind_eq_some_iff] at h
  obtain ⟨values, -, h⟩ := h
  split at h
  · simp only [Option.bind_eq_some_iff] at h
    obtain ⟨items, -, runs, hruns, ⟨⟩⟩ := h
    intro r hr
    obtain ⟨item, hitem⟩ := exists_of_mapM hruns (List.mem_toArray.mp hr)
    exact Run.fits_of_ofJson? hitem
  · cases h

theorem fits_of_load? {text : String} {c : Chunk} (h : Chunk.load? text = some c) :
    c.lines.Fits := by
  unfold Chunk.load? at h
  split at h
  · simp only [Chunk.ofJson?, Option.bind_eq_bind, Option.bind_eq_some_iff] at h
    obtain ⟨values, -, h⟩ := h
    split at h
    · simp only [Option.bind_eq_some_iff] at h
      obtain ⟨-, -, -, -, -, -, -, -, lines, hlines, ⟨⟩⟩ := h
      exact fits_of_ofJson? hlines
    · cases h
  · cases h

theorem exists_loaded_iff (t : LineTable) :
    (∃ text c, Chunk.load? text = some c ∧ c.lines = t) ↔ t.Fits := by
  constructor
  · rintro ⟨text, c, h, rfl⟩
    exact fits_of_load? h
  · intro h
    refine ⟨Chunk.store ⟨#[], #[], t⟩, ⟨#[], #[], t⟩, ?_, rfl⟩
    rw [Chunk.store, Chunk.load?_write Spacing.blank_compact, Chunk.ofJson?_toJson h]
    rfl

end LineTable

theorem Machine.peekChecked_eq (m : Machine) (n : Nat) : m.peekChecked n =
    match m.values[n]? with
    | some v => .ok (.ok v)
    | none =>
      if n + 1 < Word.size then .ok (.error (.stack (.underflow (n + 1) m.values.length)))
      else .error .sumTooLarge := by
  rw [peekChecked, Stack.peek?_eq, ← values]
  cases hv : m.values[n]? with
  | some v => rfl
  | none =>
    have hshort := peek_of_short (List.getElem?_eq_none_iff.mp hv)
    simp only [hshort, Word.add_eq_ite]
    split <;> rfl

/-- What is looked for is there, or more values are needed than there are, or no word is that
many. -/
theorem Machine.peekChecked_iff (m : Machine) (n : Nat) :
    (∀ v, m.peekChecked n = .ok (.ok v) ↔ m.values[n]? = some v) ∧
    (∀ fault, m.peekChecked n = .ok (.error fault) ↔
      fault = .stack (.underflow (n + 1) m.values.length) ∧ m.values.length < n + 1 ∧
        n + 1 < Word.size) ∧
    ∀ r, m.peekChecked n = .error r ↔
      r = .sumTooLarge ∧ m.values.length ≤ n ∧ Word.size ≤ n + 1 := by
  rw [m.peekChecked_eq n]
  cases hv : m.values[n]? with
  | some v =>
    obtain ⟨hlt, -⟩ := List.getElem?_eq_some_iff.mp hv
    refine ⟨fun w => by simp, fun fault => iff_of_false nofun ?_, fun r => iff_of_false nofun ?_⟩
    · rintro ⟨-, hshort, -⟩
      omega
    · rintro ⟨-, hshort, -⟩
      omega
  | none =>
    have hshort := List.getElem?_eq_none_iff.mp hv
    dsimp only
    split
    · next hword =>
      refine ⟨fun w => by simp, fun fault => ?_, fun r => iff_of_false nofun (by omega)⟩
      simp only [Except.ok.injEq, Except.error.injEq, eq_comm (a := fault)]
      exact ⟨fun h => ⟨h, by omega, hword⟩, fun h => h.1⟩
    · next hpast =>
      refine ⟨fun w => by simp, fun fault => iff_of_false nofun (by omega), fun r => ?_⟩
      simp only [Except.error.injEq, eq_comm (a := r)]
      exact ⟨fun h => ⟨h, hshort, by omega⟩, fun h => h.1⟩

/-- A sum of counts is what it is or is refused, and is refused exactly if it is no word: for the
size of a line table, for the line of an offset, for one more byte of a line, and for the number of
values that a look into the stack needs, which is more than there are. As a chunk file may hold any
words as counts, there are sums to be refused, and a word that is an offset then has no line. -/
theorem refused_sums (t : LineTable) (m : Machine) (n : Nat) :
    t.size = (if t.total < Word.size then .ok t.total else .error .sumTooLarge) ∧
    (∀ offset, t.lineAt? offset =
      if t.PassesWord offset then .error .sumTooLarge else .ok t.byteLines[offset]?) ∧
    (Word.size ≤ t.total ↔ ∃ offset < Word.size, t.PassesWord offset) ∧
    (∀ line, (t.push line).byteLines = t.byteLines ++ [line] ∧ t.pushChecked line =
      if ∃ run ∈ t.runs.back?, run.line = line ∧ Word.size ≤ run.count + 1 then
        .error .sumTooLarge
      else .ok (t.push line)) ∧
    ((∃ text c, Chunk.load? text = some c ∧ c.lines = t) ↔ t.Fits) ∧
    (∀ v, m.peekChecked n = .ok (.ok v) ↔ m.values[n]? = some v) ∧
    (∀ fault, m.peekChecked n = .ok (.error fault) ↔
      fault = .stack (.underflow (n + 1) m.values.length) ∧ m.values.length < n + 1 ∧
        n + 1 < Word.size) ∧
    ∀ r, m.peekChecked n = .error r ↔
      r = .sumTooLarge ∧ m.values.length ≤ n ∧ Word.size ≤ n + 1 :=
  ⟨t.size_eq_ite, t.lineAt?_eq_ite, t.size_le_total_iff,
    fun line => ⟨t.byteLines_push line, t.pushChecked_eq_ite line⟩, t.exists_loaded_iff,
    m.peekChecked_iff n⟩

/-- A file whose two runs have words as counts and a sum that is none, a run that holds as many
bytes as a word can count, and a look for the last of all distances. -/
theorem loaded_sums_refused :
    let t : LineTable := ⟨#[⟨1, 1⟩, ⟨2, 18446744073709551615⟩]⟩
    let text := "\x7b\"code\":[],\"constants\":[]," ++
      "\"lines\":\x7b\"runs\":[[1,1],[2,18446744073709551615]]\x7d\x7d"
    Chunk.load? text = some ⟨#[], #[], t⟩ ∧ t.total = Word.size ∧ t.size = .error .sumTooLarge ∧
      t.countTo 1 ≤ 1 ∧ 1 < t.countTo 2 ∧ t.lineAt? 1 = .error .sumTooLarge ∧
      (LineTable.ofRuns [⟨2, 18446744073709551615⟩]).pushChecked 2 = .error .sumTooLarge ∧
      (Machine.new ⟨256, false, false⟩).peekChecked 18446744073709551615 =
        .error .sumTooLarge := by
  refine ⟨by decide +kernel, rfl, rfl, by decide, by decide, rfl, rfl, rfl⟩

end ExprMachine
