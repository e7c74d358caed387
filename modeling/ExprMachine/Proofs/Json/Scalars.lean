import ExprMachine.Json.Render
import ExprMachine.Proofs.Json.Rereading

/-! Strings and numbers in JSON read back in front of any text that cannot be part of them. -/

namespace ExprMachine

namespace Json

theorem hexDigit?_digitChar : ∀ n < 16, hexDigit? (Nat.digitChar n) = some n := by decide

/-- However a character is written, it is read as one unit. -/
theorem stringUnits?_escape (c : Char) (found : List Nat) (rest : List Char) :
    stringUnits? found (escape c ++ rest) = stringUnits? (c.toNat :: found) rest := by
  unfold escape
  by_cases h : c ∈ ['"', '\\', '\n', '\r', '\t', '\x08', '\x0c']
  · simp only [List.mem_cons, List.not_mem_nil, or_false] at h
    rcases h with rfl | rfl | rfl | rfl | rfl | rfl | rfl <;> rfl
  simp only [List.mem_cons, List.not_mem_nil, or_false, not_or] at h
  obtain ⟨hquote, hslash, hn, hr, ht, hb, hf⟩ := h
  rw [if_neg hquote, if_neg hslash, if_neg hn, if_neg hr, if_neg ht, if_neg hb, if_neg hf]
  split
  · next hcontrol =>
    have hhigh := hexDigit?_digitChar (c.toNat / 16) (by omega)
    have hlow := hexDigit?_digitChar (c.toNat % 16) (by omega)
    have hzero : hexDigit? '0' = some 0 := rfl
    have hunit : hexUnit? '0' '0' (Nat.digitChar (c.toNat / 16)) (Nat.digitChar (c.toNat % 16)) =
        some c.toNat := by
      simp only [hexUnit?, hhigh, hlow, hzero, Option.bind_eq_bind, Option.bind_some]
      show some _ = some _
      congr 1
      omega
    simp only [List.cons_append, List.nil_append, stringUnits?, hunit]
  · next hcontrol =>
    rw [List.singleton_append, stringUnits?.eq_def]
    split <;> simp_all

theorem stringUnits?_text (cs : List Char) (found : List Nat) (rest : List Char) :
    stringUnits? found (cs.flatMap escape ++ '"' :: rest) =
      some (found.reverse ++ cs.map Char.toNat, rest) := by
  induction cs generalizing found with
  | nil => simp [stringUnits?]
  | cons c cs ih =>
    rw [List.flatMap_cons, List.append_assoc, stringUnits?_escape, ih, List.reverse_cons,
      List.append_assoc, List.singleton_append, List.map_cons]

/-- No character is half of a surrogate pair. -/
theorem joinUnits?_chars (cs found : List Char) :
    joinUnits? found (cs.map Char.toNat) = some (found.reverse ++ cs) := by
  induction cs generalizing found with
  | nil => rw [List.map_nil, joinUnits?, List.append_nil]
  | cons c cs ih =>
    have hvalid : c.toNat < 0xD800 ∨ 0xDFFF < c.toNat := by
      rcases c.valid with h | h
      · exact .inl h
      · exact .inr h.1
    rw [List.map_cons, joinUnits?.eq_def]
    simp only [hvalid, if_true, Char.ofNat_toNat]
    rw [ih, List.reverse_cons, List.append_assoc, List.singleton_append]

theorem stringRest?_text (text : Option String) (rest : List Char) :
    ∃ cs, renderString text ++ rest = '"' :: cs ∧ stringRest? cs = some (text, rest) := by
  cases text with
  | none =>
    refine ⟨['\\', 'u', 'd', '8', '0', '0'] ++ '"' :: rest, rfl, ?_⟩
    have hunit : hexUnit? 'd' '8' '0' '0' = some 0xD800 := by decide
    have hjoin : joinUnits? [] [0xD800] = none := by decide
    simp only [stringRest?, List.cons_append, List.nil_append, stringUnits?, hunit,
      List.reverse_cons, List.reverse_nil, hjoin, Option.map_none]
  | some s =>
    refine ⟨s.toList.flatMap escape ++ '"' :: rest, ?_, ?_⟩
    · rw [renderString, List.cons_append, List.cons_append, List.append_assoc,
        List.singleton_append]
    · rw [stringRest?, stringUnits?_text]
      simp only [List.reverse_nil, List.nil_append, joinUnits?_chars, Option.map_some,
        String.ofList_toList]

/-- What can follow a number. -/
def Ends (rest : List Char) : Prop :=
  ∀ c, rest.head? = some c → c.isDigit = false ∧ c ≠ '.' ∧ c ≠ 'e' ∧ c ≠ 'E'

theorem someDigits?_append {cs rest : List Char} (hcs : AllDigits cs) (hne : cs ≠ [])
    (hrest : ∀ c, rest.head? = some c → c.isDigit = false) :
    someDigits? (cs ++ rest) = some (cs, rest) := by
  rw [someDigits?, digits_append hcs hrest]
  cases cs with
  | nil => exact absurd rfl hne
  | cons c cs => rfl

variable {n : Numeral} {rest : List Char}

theorem whole?_append (hn : n.Valid) (hrest : ∀ c, rest.head? = some c → c.isDigit = false) :
    whole? (n.whole ++ rest) = some (n.whole, rest) := by
  rcases hn.noZero with hzero | hhead
  · rw [hzero]
    rfl
  · have hsome := someDigits?_append hn.whole hn.nonempty hrest
    cases hwhole : n.whole with
    | nil => exact absurd hwhole hn.nonempty
    | cons c cs =>
      rw [hwhole] at hhead hsome
      rw [List.cons_append] at hsome ⊢
      unfold whole?
      split
      · next h =>
        injection h with hc
        exact absurd (congrArg some hc) hhead
      · exact hsome

theorem fraction?_append {fraction : List Char} (hfraction : AllDigits fraction)
    (hrest : ∀ c, rest.head? = some c → c.isDigit = false ∧ c ≠ '.') :
    fraction? ((if fraction = [] then [] else '.' :: fraction) ++ rest) =
      some (if fraction = [] then [] else '.' :: fraction, rest) := by
  by_cases hempty : fraction = []
  · rw [if_pos hempty, List.nil_append]
    unfold fraction?
    split
    · next rest => exact absurd rfl (hrest '.' rfl).2
    · rfl
  · rw [if_neg hempty, List.cons_append, fraction?,
      someDigits?_append hfraction hempty fun c hc => (hrest c hc).1]
    rfl

theorem exponent?_append (exponent : Option (Bool × Nat)) (hrest : Ends rest) :
    exponent? (Numeral.exponentText exponent ++ rest) =
      some (Numeral.exponentText exponent, rest) := by
  rcases exponent with _ | ⟨negative, size⟩
  · rw [Numeral.exponentText, List.nil_append]
    cases rest with
    | nil => rfl
    | cons c rest =>
      obtain ⟨-, -, he, hE⟩ := hrest c rfl
      rw [exponent?, if_neg (not_or.mpr ⟨he, hE⟩)]
  · have hstop : ∀ c, rest.head? = some c → c.isDigit = false := fun c hc => (hrest c hc).1
    have hsome := someDigits?_append (allDigits_toDigits size) Nat.toDigits_ne_nil hstop
    cases negative with
    | false =>
      show Option.map _ (someDigits? (Nat.toDigits 10 size ++ rest)) = _
      rw [hsome]
      rfl
    | true =>
      show Option.map _ (someDigits? (Nat.toDigits 10 size ++ rest)) = _
      rw [hsome]
      rfl

theorem number?_append (hn : n.Valid) (negative : Bool) (hrest : Ends rest) :
    number? ((Layout.signed negative n.text).toList ++ rest) =
      some (.number (Layout.signed negative n.text), rest) := by
  obtain ⟨whole, fraction, exponent⟩ := n
  have hexponent : ∀ c, (Numeral.exponentText exponent ++ rest).head? = some c →
      c.isDigit = false ∧ c ≠ '.' := by
    intro c hc
    rcases exponent with _ | ⟨sign, size⟩
    · exact ⟨(hrest c hc).1, (hrest c hc).2.1⟩
    · cases hc
      exact ⟨rfl, by decide⟩
  have hfraction : ∀ c, ((if fraction = [] then [] else '.' :: fraction) ++
      (Numeral.exponentText exponent ++ rest)).head? = some c → c.isDigit = false := by
    intro c hc
    by_cases hempty : fraction = []
    · rw [if_pos hempty] at hc
      exact (hexponent c hc).1
    · rw [if_neg hempty] at hc
      cases hc
      rfl
  have hwhole := whole?_append hn hfraction
  have hplain : minus (whole ++ ((if fraction = [] then [] else '.' :: fraction) ++
      (Numeral.exponentText exponent ++ rest))) = ([], whole ++
        ((if fraction = [] then [] else '.' :: fraction) ++
          (Numeral.exponentText exponent ++ rest))) := by
    obtain ⟨c, cs, hcs⟩ := List.exists_cons_of_ne_nil hn.nonempty
    dsimp only at hcs
    have hc := hn.whole c (hcs ▸ List.mem_cons_self)
    rw [hcs]
    unfold minus
    split
    · next h =>
      injection h with hsign
      rw [hsign] at hc
      cases hc
    · rfl
  have hminus : minus ((Layout.signed negative (Numeral.text ⟨whole, fraction, exponent⟩)).toList ++
      rest) = (if negative then ['-'] else [], whole ++
        ((if fraction = [] then [] else '.' :: fraction) ++
          (Numeral.exponentText exponent ++ rest))) := by
    cases negative with
    | false => simpa [Layout.signed, Numeral.text] using hplain
    | true => simp [Layout.signed, Numeral.text, minus]
  dsimp only at hwhole
  rw [number?, hminus]
  simp only [hwhole, fraction?_append hn.fraction hexponent, exponent?_append exponent hrest,
    Option.bind_eq_bind, Option.bind_some]
  cases negative <;> simp [Layout.signed, Numeral.text]

end Json

end ExprMachine
