import ExprMachine.Proofs.Chunk.Stored
import ExprMachine.Proofs.Compile.Culprits
import ExprMachine.Proofs.Compile.InTurn
import ExprMachine.Proofs.Token.Places

/-! Compiled programs that are stored and loaded again. The constants of a program are the
literals in it, and a literal too large for a double is the one thing that cannot be loaded. -/

namespace ExprMachine

open Magnitude

theorem Decimal.toFloat_cases (d : Decimal) :
    isNegative (d.toFloat false) = false ∧
      ((∃ m s, ofFloat (d.toFloat false) = .finite m s) ↔ d.num < overflow * d.den) ∧
      ((∃ m s, ofFloat (d.toFloat false) = .finite m s) ∨
        ofFloat (d.toFloat false) = .infinite) := by
  have hbits : (d.toFloat false).toBits.toNat = nearestBits d.num d.den := by
    rw [toFloat_bits, toBits_eq]
  have hle : nearestBits d.num d.den ≤ infinityBits := Nat.min_le_right _ _
  by_cases hlt : nearestBits d.num d.den < infinityBits
  · obtain ⟨m, s, hholds⟩ := holds_of_lt (x := d.toFloat false) (by rwa [hbits])
    have hfinite : ∃ m s, ofFloat (d.toFloat false) = .finite m s := ⟨m, s, hholds.ofFloat⟩
    exact ⟨hholds.isNegative, iff_of_true hfinite ((nearestBits_lt_iff _ d.den_pos).mp hlt),
      .inl hfinite⟩
  · have hinfinite : ofFloat (d.toFloat false) = .infinite := by
      rw [ofFloat, hbits, Nat.le_antisymm hle (Nat.not_lt.mp hlt)]
      decide
    refine ⟨?_, iff_of_false ?_ ?_, .inr hinfinite⟩
    · rw [isNegative, hbits, Nat.le_antisymm hle (Nat.not_lt.mp hlt)]
      decide
    · rintro ⟨m, s, h⟩
      rw [hinfinite] at h
      cases h
    · rwa [← nearestBits_lt_iff _ d.den_pos]

namespace Chunk

/-- No run is on a line after this one. -/
def UpTo (c : Chunk) (last : Nat) : Prop := ∀ r ∈ c.lines.runs, r.line ≤ last

theorem UpTo.writeAll {c : Chunk} {last line : Nat} (h : c.UpTo last) (hl : line ≤ last)
    (bytes : List UInt8) : (c.writeAll bytes line).UpTo last := by
  induction bytes generalizing c with
  | nil => exact h
  | cons byte bytes ih =>
    refine ih fun r hr => ?_
    have hpush : r ∈ (c.lines.push line).runs := hr
    unfold LineTable.push at hpush
    have hnew (runs : Array Run) (count : Nat) (hruns : ∀ r ∈ runs, r.line ≤ last)
        (hmem : r ∈ runs.push ⟨line, count⟩) : r.line ≤ last := by
      rcases Array.mem_push.mp hmem with hmem | rfl
      · exact hruns r hmem
      · exact hl
    split at hpush
    · split at hpush
      · refine hnew _ _ (fun r hr => h r ?_) hpush
        rw [← Array.mem_toList_iff, Array.toList_pop] at hr
        exact Array.mem_toList_iff.mp (List.mem_of_mem_dropLast hr)
      · exact hnew _ _ h hpush
    · exact hnew _ _ h hpush

theorem UpTo.add? {c d : Chunk} {last : Nat} {e : Emission} (h : c.UpTo last)
    (hl : e.line ≤ last) (ha : c.add? e = some d) : d.UpTo last := by
  obtain ⟨i, line⟩ := e
  cases i with
  | op code =>
    obtain rfl : c.writeAll [code.toByte] line = d := Option.some.inj ha
    exact h.writeAll hl _
  | load constant =>
    obtain ⟨c', index, hi⟩ : ∃ c' index, c.intern constant = (c', index) := ⟨_, _, rfl⟩
    obtain ⟨-, -, hlines, -⟩ := intern_spec hi
    have hc' : c'.UpTo last := by
      rw [UpTo, hlines]
      exact h
    simp only [Chunk.add?, writeConstant, hi] at ha
    split at ha
    · next hle =>
      split at hle
      · cases hle
        cases ha
        exact hc'.writeAll hl _
      · cases hle
    · cases ha

theorem UpTo.addAll? {c d : Chunk} {last : Nat} {es : List Emission} (h : c.UpTo last)
    (hl : ∀ e ∈ es, e.line ≤ last) (ha : c.addAll? es = some d) : d.UpTo last := by
  induction es generalizing c with
  | nil =>
    cases ha
    exact h
  | cons e es ih =>
    rw [Chunk.addAll?, List.foldlM_cons] at ha
    obtain ⟨c', he, hes⟩ := Option.bind_eq_some_iff.mp ha
    exact ih (h.add? (hl e List.mem_cons_self) he) (fun e he => hl e (List.mem_cons_of_mem _ he)) hes

end Chunk

/-- A run counts no more bytes than the table has lines for. -/
theorem LineTable.count_le {t : LineTable} {r : Run} (h : r ∈ t.runs) :
    r.count ≤ t.byteLines.length := by
  obtain ⟨before, after, hruns⟩ := List.append_of_mem (Array.mem_toList_iff.mpr h)
  rw [byteLines, hruns]
  simp only [expandRuns, List.flatMap_append, List.flatMap_cons, List.length_append,
    List.length_replicate]
  omega

/-- No token stands after the end of the text. -/
theorem Scan.line_placeOf_le {source : String} {s : Scan} (hs : scan source = .ok s) (i : Nat) :
    lineOf s.placeOf i ≤ s.finish.line := by
  rw [lineOf, placeOf]
  cases ht : s.tokens[i]? with
  | none => exact Nat.le_refl _
  | some t =>
    obtain ⟨before, c, after, ⟨-, -, -, -, -, -, htext, -⟩, hline⟩ := tokenAt_of_scan hs ht
    rw [Option.map_some, Option.getD_some, hline, s.line_finish hs, htext, List.count_append]
    omega

theorem Chunk.fits_of_compile {source : String} {s : Scan} {c : Chunk}
    (hs : scan source = .ok s) (hc : compile source = .ok c) (hlines : s.finish.line < Word.size)
    (hcode : c.code.size < Word.size) : c.lines.Fits := by
  obtain ⟨ha, -⟩ := decodes_tokenCode hs hc
  have hupTo : c.UpTo s.finish.line := by
    refine UpTo.addAll? (c := empty) (fun r hr => ?_) (fun e he => ?_) (addAll?_tokenCode hs hc)
    · exact absurd hr (Array.not_mem_empty r)
    · obtain ⟨m, -, rfl⟩ := List.mem_map.mp he
      exact s.line_placeOf_le hs m.line
  intro r hr
  have hline := hupTo r hr
  have hcount := LineTable.count_le hr
  rw [ha] at hcount
  exact ⟨by omega, by omega⟩

/-- The constants of a program are the literals in it. -/
theorem compile_constants {source : String} {s : Scan} {c : Chunk} (hs : scan source = .ok s)
    (hc : compile source = .ok c) (k : Constant) :
    k ∈ c.constants ↔ ∃ t ∈ s.tokens, t.constant? = some k := by
  obtain ⟨ss, hp, ha⟩ := (compile_eq_ok_iff hs).mp hc
  obtain ⟨hd, -⟩ := parse_eq_iff.mp hp
  rw [← Array.mem_toList_iff, Chunk.addAll?_constants ha]
  constructor
  · rintro (h | ⟨m, hm, hk⟩)
    · cases h
    · exact List.mem_filterMap.mp (hd.constants hm hk)
  · rintro ⟨t, ht, hk⟩
    exact .inr (hd.loads ht hk _)

theorem Token.constant?_number {t : Token} {bits : UInt64} :
    t.constant? = some (.number bits) ↔ ∃ x, t.kind = .number x ∧ x.toBits = bits := by
  unfold Token.constant?
  cases t.kind <;> simp

/-- A number literal is less than the middle between the largest double and the power of two after
it. -/
def Token.InRange (t : Token) : Prop :=
  ∀ x d, t.kind = .number x → Decimal.read? t.text.toList = some d → d.num < Decimal.overflow * d.den

theorem Token.Faithful.number {t : Token} (h : t.Faithful) {x : Float} (hk : t.kind = .number x) :
    ∃ d, Decimal.read? t.text.toList = some d ∧ x = d.toFloat false := by
  rw [Faithful, hk] at h
  exact h

/-- A compiled program has no number that is negative or not a number. Its numbers are finite, and
it loads from either text it is stored as, exactly if no number literal is too large. -/
theorem compile_storable (source : String) (s : Scan) (c : Chunk) (hs : scan source = .ok s)
    (hc : compile source = .ok c) (hlines : s.finish.line < Word.size)
    (hcode : c.code.size < Word.size) :
    (∀ bits, .number bits ∈ c.constants → isNegative (.ofBits bits) = false ∧
      ((∃ m s, ofFloat (.ofBits bits) = .finite m s) ∨ ofFloat (.ofBits bits) = .infinite)) ∧
    List.TFAE [
      ∀ bits, .number bits ∈ c.constants → ∃ m s, ofFloat (.ofBits bits) = .finite m s,
      ∀ bits, .number bits ∈ c.constants → Constant.storedNumber (.ofBits bits) ≠ .null,
      ∃ c', Chunk.load? c.store = some c',
      ∃ c', Chunk.load? c.storeIndented = some c',
      ∀ t ∈ s.tokens, t.InRange] := by
  have hfaithful : ∀ t ∈ s.tokens, t.Faithful := by
    obtain ⟨fs, hfs, rfl⟩ := scan_eq_ok_iff.mp hs
    exact hfs.faithful _
  have hnumber {bits : UInt64} : .number bits ∈ c.constants ↔
      ∃ t ∈ s.tokens, ∃ x, t.kind = .number x ∧ x.toBits = bits := by
    simp only [compile_constants hs hc, Token.constant?_number]
  have hread {bits : UInt64} (h : .number bits ∈ c.constants) :
      ∃ t ∈ s.tokens, t.kind = .number (.ofBits bits) ∧
        ∃ d, Decimal.read? t.text.toList = some d ∧ .ofBits bits = d.toFloat false := by
    obtain ⟨t, ht, x, hk, rfl⟩ := hnumber.mp h
    rw [x.ofBits_toBits]
    exact ⟨t, ht, hk, (hfaithful t ht).number hk⟩
  have hfits := Chunk.fits_of_compile hs hc hlines hcode
  refine ⟨fun bits hbits => ?_, ?_⟩
  · obtain ⟨t, -, -, d, -, hd⟩ := hread hbits
    rw [hd]
    exact ⟨d.toFloat_cases.1, d.toFloat_cases.2.2⟩
  tfae_have 1 ↔ 2 := by simp only [Constant.storedNumber_ne_null_iff]
  tfae_have 3 ↔ 1 := Chunk.exists_load?_iff Spacing.blank_compact hfits
  tfae_have 4 ↔ 1 := Chunk.exists_load?_iff Spacing.blank_indented hfits
  tfae_have 1 → 5 := by
    intro hfinite t ht x d hk hd
    obtain ⟨d', hd', rfl⟩ := (hfaithful t ht).number hk
    obtain rfl : d = d' := Option.some.inj (hd.symm.trans hd')
    have hx := hfinite _ (hnumber.mpr ⟨t, ht, _, hk, rfl⟩)
    rw [Float.ofBits_toBits] at hx
    exact d.toFloat_cases.2.1.mp hx
  tfae_have 5 → 1 := by
    intro hrange bits hbits
    obtain ⟨t, ht, hk, d, hd, hx⟩ := hread hbits
    rw [hx]
    exact d.toFloat_cases.2.1.mpr (hrange t ht _ d hk hd)
  tfae_finish

theorem compile_storable_half : ∃ c, compile "print 0.5;" = .ok c ∧
    ∃ c', Chunk.load? c.store = some c' := by
  have hscan : ((scan "print 0.5;").toOption.map fun s =>
      decide (s.finish.line < Word.size)) = some true := by decide +kernel
  have hcompile : ((compile "print 0.5;").toOption.map fun c =>
      decide (c.code.size < Word.size ∧
        c.constants = #[.number (Decimal.toFloat ⟨5, -1⟩ false).toBits])) = some true := by
    decide +kernel
  obtain ⟨s, hs, hlines⟩ := exists_ok_of_toOption hscan
  obtain ⟨c, hc, hcode⟩ := exists_ok_of_toOption hcompile
  obtain ⟨hcode, hconstants⟩ := of_decide_eq_true hcode
  obtain ⟨-, hall⟩ := compile_storable _ s c hs hc (of_decide_eq_true hlines) hcode
  refine ⟨c, hc, (hall.out 0 2).mp fun bits hbits => ?_⟩
  obtain rfl : bits = (Decimal.toFloat ⟨5, -1⟩ false).toBits := by simpa [hconstants] using hbits
  rw [Float.ofBits_toBits]
  exact ⟨_, _, (by decide +kernel : ofFloat (Decimal.toFloat ⟨5, -1⟩ false) =
    .finite 4503599627370496 1021)⟩

/-- A literal of 309 nines is read as infinite, and what it compiles to does not load. -/
theorem compile_nines : ∃ c, compile (String.ofList (List.replicate 309 '9' ++ [';'])) = .ok c ∧
    (∃ bits, .number bits ∈ c.constants ∧ ofFloat (.ofBits bits) = .infinite) ∧
    Chunk.load? c.store = none ∧ Chunk.load? c.storeIndented = none := by
  have hcompile : ((compile (String.ofList (List.replicate 309 '9' ++ [';']))).toOption.map fun c =>
      decide (c = ⟨#[1, 0, 6, 0], #[.number 0x7FF0000000000000], ⟨#[⟨1, 4⟩]⟩⟩)) =
        some true := by
    -- The characters are put in directly, as taking a string apart takes long.
    rw [compile, scan, String.toList_ofList]
    decide +kernel
  obtain ⟨c, hc, hdecided⟩ := exists_ok_of_toOption hcompile
  obtain rfl := of_decide_eq_true hdecided
  have hinfinite : ofFloat (Float.ofBits 0x7FF0000000000000) = .infinite := by decide +kernel
  have hfits : LineTable.Fits ⟨#[⟨1, 4⟩]⟩ := by
    unfold LineTable.Fits Run.Fits
    decide
  have hnone {s : Spacing} (hs : s.Blank) : Chunk.load? (Chunk.toJson
      ⟨#[1, 0, 6, 0], #[.number 0x7FF0000000000000], ⟨#[⟨1, 4⟩]⟩⟩ |>.write s) = none := by
    refine Option.eq_none_iff_forall_ne_some.mpr fun c' hload => ?_
    obtain ⟨m, s, hfinite⟩ := (Chunk.exists_load?_iff hs hfits).mp ⟨c', hload⟩ _
      (Array.mem_singleton.mpr rfl)
    rw [hinfinite] at hfinite
    cases hfinite
  exact ⟨_, hc, ⟨_, Array.mem_singleton.mpr rfl, hinfinite⟩, hnone Spacing.blank_compact,
    hnone Spacing.blank_indented⟩

end ExprMachine
