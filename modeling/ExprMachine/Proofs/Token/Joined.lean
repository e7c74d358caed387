import ExprMachine.Proofs.Token.Splitting

/-! Scanning a text after one that ends in a semicolon finds the same tokens, further down. -/

namespace ExprMachine

theorem takeWhile_append_of_stop {p : Char → Bool} {cs : List Char} (h : cs.dropWhile p ≠ [])
    (us : List Char) : (cs ++ us).takeWhile p = cs.takeWhile p := by
  induction cs with
  | nil => exact absurd rfl h
  | cons c cs ih =>
    by_cases hc : p c = true
    · rw [List.dropWhile_cons_of_pos hc] at h
      rw [List.cons_append, List.takeWhile_cons_of_pos hc, List.takeWhile_cons_of_pos hc, ih h]
    · rw [List.cons_append, List.takeWhile_cons_of_neg hc, List.takeWhile_cons_of_neg hc]

theorem dropWhile_append_of_stop {p : Char → Bool} {cs : List Char} (h : cs.dropWhile p ≠ [])
    (us : List Char) : (cs ++ us).dropWhile p = cs.dropWhile p ++ us := by
  induction cs with
  | nil => exact absurd rfl h
  | cons c cs ih =>
    by_cases hc : p c = true
    · rw [List.dropWhile_cons_of_pos hc] at h
      rw [List.cons_append, List.dropWhile_cons_of_pos hc, List.dropWhile_cons_of_pos hc, ih h]
    · rw [List.cons_append, List.dropWhile_cons_of_neg hc, List.dropWhile_cons_of_neg hc,
        List.cons_append]

/-- A text whose last character stops every piece but a comment and a string. -/
def LastSemicolon (cs : List Char) : Prop := ∃ init, cs = init ++ [';']

theorem LastSemicolon.ne_nil {cs : List Char} (h : LastSemicolon cs) : cs ≠ [] := by
  obtain ⟨init, rfl⟩ := h
  simp

theorem LastSemicolon.append {cs : List Char} (h : LastSemicolon cs) (pre : List Char) :
    LastSemicolon (pre ++ cs) := by
  obtain ⟨init, rfl⟩ := h
  exact ⟨pre ++ init, (List.append_assoc _ _ _).symm⟩

namespace Front

/-- The piece with more text after it. -/
def followed (f : Front) (us : List Char) : Front := ⟨f.piece, f.text, f.rest ++ us⟩

theorem slash_of_ne {d : Char} (hd : d ≠ '/') (more : List Char) :
    slash (d :: more) = ⟨.token .slash, ['/'], d :: more⟩ := by
  unfold slash
  split
  · next h => cases h; exact absurd rfl hd
  · rfl

theorem slash_followed {rest : List Char} (h : (slash rest).rest ≠ []) (us : List Char) :
    slash (rest ++ us) = (slash rest).followed us := by
  cases rest with
  | nil => exact absurd rfl h
  | cons d more =>
    by_cases hd : d = '/'
    · subst hd
      have hn : more.dropWhile (· != '\n') ≠ [] := h
      simp only [slash, List.cons_append, takeWhile_append_of_stop hn, dropWhile_append_of_stop hn,
        followed]
    · rw [slash_of_ne hd, List.cons_append, slash_of_ne hd]
      rfl

theorem quoted_followed {rest : List Char} {f : Front} (h : quoted rest = .ok f)
    (us : List Char) : quoted (rest ++ us) = .ok (f.followed us) := by
  unfold quoted at h
  split at h
  · cases h
  · next c after hd =>
    cases h
    have hn : rest.dropWhile (· != '"') ≠ [] := by rw [hd]; exact List.cons_ne_nil _ _
    simp only [quoted, takeWhile_append_of_stop hn, dropWhile_append_of_stop hn, hd,
      List.cons_append, followed]

theorem comparison_of_ne {d : Char} (hd : d ≠ '=') (c : Char) (alone joined : Kind)
    (more : List Char) :
    comparison c alone joined (d :: more) = ⟨.token alone, [c], d :: more⟩ := by
  unfold comparison
  split
  · next h => cases h; exact absurd rfl hd
  · rfl

theorem comparison_followed {c : Char} {alone joined : Kind} {rest : List Char}
    (h : (comparison c alone joined rest).rest ≠ []) (us : List Char) :
    comparison c alone joined (rest ++ us) = (comparison c alone joined rest).followed us := by
  cases rest with
  | nil => exact absurd rfl h
  | cons d more =>
    by_cases hd : d = '='
    · subst hd
      rfl
    · rw [comparison_of_ne hd, List.cons_append, comparison_of_ne hd]
      rfl

theorem number_of_no_fraction {cs : List Char}
    (h : ∀ d more, cs.dropWhile Char.isDigit = '.' :: d :: more → d.isDigit = false) :
    number cs = ⟨numeral (cs.takeWhile Char.isDigit) [], cs.takeWhile Char.isDigit,
      cs.dropWhile Char.isDigit⟩ := by
  unfold number
  dsimp only
  split
  · next d more hd => rw [h d more hd, if_neg Bool.false_ne_true]
  · rfl

/-- A point at the very end would be the one to watch: a digit could follow. -/
theorem number_followed {cs : List Char} (h : LastSemicolon (number cs).rest) (us : List Char) :
    number (cs ++ us) = (number cs).followed us := by
  by_cases hf : ∃ d more, cs.dropWhile Char.isDigit = '.' :: d :: more ∧ d.isDigit = true
  · obtain ⟨d, more, hr, hd⟩ := hf
    have hn : cs.dropWhile Char.isDigit ≠ [] := by rw [hr]; exact List.cons_ne_nil _ _
    have hrest : (number cs).rest = more.dropWhile Char.isDigit := by
      simp only [number, hr, hd, if_true]
    have hm : more.dropWhile Char.isDigit ≠ [] := hrest ▸ h.ne_nil
    unfold number
    rw [takeWhile_append_of_stop hn, dropWhile_append_of_stop hn, hr]
    simp only [List.cons_append, hd, if_true, takeWhile_append_of_stop hm,
      dropWhile_append_of_stop hm, followed]
  · have hno (d : Char) (more : List Char) (hr : cs.dropWhile Char.isDigit = '.' :: d :: more) :
        d.isDigit = false := by
      rw [Bool.eq_false_iff]
      intro hd
      exact hf ⟨d, more, hr, hd⟩
    rw [number_of_no_fraction hno] at h ⊢
    have hn : cs.dropWhile Char.isDigit ≠ [] := h.ne_nil
    rw [number_of_no_fraction, takeWhile_append_of_stop hn, dropWhile_append_of_stop hn]
    · rfl
    · intro d more hr
      rw [dropWhile_append_of_stop hn] at hr
      obtain ⟨init, hi⟩ := h
      rcases init with _ | ⟨e, _ | ⟨e', init⟩⟩
      · rw [show cs.dropWhile Char.isDigit = [';'] from hi] at hr
        cases hr
      · rw [show cs.dropWhile Char.isDigit = [e, ';'] from hi] at hr
        cases hr
        rfl
      · rw [show cs.dropWhile Char.isDigit = e :: e' :: (init ++ [';']) from hi] at hr
        cases hr
        exact hno _ _ hi

theorem word_followed {cs : List Char} (h : (word cs).rest ≠ []) (us : List Char) :
    word (cs ++ us) = (word cs).followed us := by
  have hd : cs.dropWhile continuesWord ≠ [] := h
  simp only [word, takeWhile_append_of_stop hd, dropWhile_append_of_stop hd, followed]

end Front

open Front in
theorem front_followed {c : Char} {rest : List Char} {f : Front} (h : front c rest = .ok f)
    (hr : LastSemicolon f.rest) (us : List Char) :
    front c (rest ++ us) = .ok (f.followed us) := by
  unfold front at h ⊢
  split at h
  · next hc => cases h; rw [if_pos hc]; rfl
  split at h
  · next hg hc =>
    cases h
    rw [if_neg hg, if_pos hc, slash_followed hr.ne_nil]
  split at h
  · next hg hs hc => rw [if_neg hg, if_neg hs, if_pos hc, quoted_followed h]
  split at h
  · next hg hs hq hc =>
    cases h
    rw [if_neg hg, if_neg hs, if_neg hq, if_pos hc, ← List.cons_append, number_followed hr]
  split at h
  · next hg hs hq hd hc =>
    cases h
    rw [if_neg hg, if_neg hs, if_neg hq, if_neg hd, if_pos hc, ← List.cons_append,
      word_followed hr.ne_nil]
  rename_i hg hs hq hd hw
  rw [if_neg hg, if_neg hs, if_neg hq, if_neg hd, if_neg hw]
  rcases Option.eq_none_or_eq_some (sign? c) with hc | ⟨kind, hc⟩
  · rcases Option.eq_none_or_eq_some (comparison? c) with hcmp | ⟨⟨alone, joined⟩, hcmp⟩
    · simp only [hc, hcmp] at h
      cases h
    · simp only [hc, hcmp] at h ⊢
      cases h
      rw [comparison_followed hr.ne_nil]
  · simp only [hc] at h ⊢
    cases h
    rfl

theorem Front.Longest.followed {f : Front} (h : f.Longest) (hr : LastSemicolon f.rest)
    (us : List Char) : (f.followed us).Longest := by
  obtain ⟨c, rest, -, hf⟩ := h.front
  exact front_longest (front_followed hf hr us)

theorem Splits.followed {cs rest : List Char} {fs : List Front} (h : Splits cs fs rest)
    (hr : LastSemicolon rest) (us : List Char) :
    Splits (cs ++ us) (fs.map (·.followed us)) (rest ++ us) := by
  induction h with
  | stop cs => exact .stop _
  | @piece f fs cs hf hs ih =>
    have hl : LastSemicolon f.rest := by
      rw [hs.text]
      exact hr.append _
    rw [List.append_assoc]
    exact .piece (hf.followed hl us) (ih hr)

theorem Splits.trans {cs mid rest : List Char} {fs gs : List Front} (h : Splits cs fs mid)
    (h' : Splits mid gs rest) : Splits cs (fs ++ gs) rest := by
  induction h with
  | stop cs => exact h'
  | piece hf _ ih => exact .piece hf (ih h')

def semicolonFront (rest : List Char) : Front := ⟨.token .semicolon, [';'], rest⟩

theorem semicolonFront_longest (rest : List Char) : (semicolonFront rest).Longest :=
  front_longest (show front ';' rest = .ok (semicolonFront rest) from rfl)

/-- The pieces before the last character leave a semicolon, so this is a token of its own. -/
def EndsInSemicolon (source : String) : Prop := ∃ fs, Splits source.toList fs [';']

theorem tokensOf_append (p : Place) (fs gs : List Front) :
    tokensOf p (fs ++ gs) = tokensOf p fs ++ tokensOf (p.after fs) gs := by
  induction fs generalizing p with
  | nil => rfl
  | cons f fs ih =>
    rw [List.cons_append, tokensOf, tokensOf, ih, List.append_assoc]
    rfl

theorem Place.after_append (p : Place) (fs gs : List Front) :
    p.after (fs ++ gs) = (p.after fs).after gs :=
  List.foldl_append

theorem Place.after_followed (p : Place) (fs : List Front) (us : List Char) :
    p.after (fs.map (·.followed us)) = p.after fs := by
  rw [after, List.foldl_map]
  rfl

theorem tokensOf_followed (p : Place) (fs : List Front) (us : List Char) :
    tokensOf p (fs.map (·.followed us)) = tokensOf p fs := by
  induction fs generalizing p with
  | nil => rfl
  | cons f fs ih =>
    rw [List.map_cons, tokensOf, tokensOf, ih]
    rfl

/-! Places in a text that stands after another one. -/

/-- Where a place of a text is if the text follows the place `base`. Only its first line goes
on in the line of `base`. -/
def Place.shift (base p : Place) : Place :=
  ⟨p.line + (base.line - 1), if p.line = 1 then p.column + (base.column + 1) else p.column⟩

def Token.shift (base : Place) (t : Token) : Token := { t with place := base.shift t.place }

namespace Place

theorem shift_start {base : Place} (h : 1 ≤ base.line) : base.shift start = base := by
  obtain ⟨line, column⟩ := base
  simp only at h
  simp only [shift, start, if_true]
  congr 1
  · omega
  · omega

theorem shift_newLine (base : Place) {p : Place} (h : 1 ≤ p.line) (column : Int) :
    base.shift ⟨p.line + 1, column⟩ = ⟨(base.shift p).line + 1, column⟩ := by
  have hne : p.line + 1 ≠ 1 := by omega
  simp only [shift, if_neg hne]
  congr 1
  omega

theorem shift_nextColumn (base p : Place) :
    base.shift ⟨p.line, p.column + 1⟩ = ⟨(base.shift p).line, (base.shift p).column + 1⟩ := by
  simp only [shift]
  congr 1
  split
  · omega
  · rfl

theorem shift_afterBlank (base : Place) {p : Place} (h : 1 ≤ p.line) (c : Char) :
    (base.shift p).afterBlank c = base.shift (p.afterBlank c) ∧ 1 ≤ (p.afterBlank c).line := by
  unfold afterBlank
  by_cases hc : c = '\n'
  · rw [if_pos hc, if_pos hc, shift_newLine base h]
    exact ⟨rfl, Nat.le_succ_of_le h⟩
  · rw [if_neg hc, if_neg hc, shift_nextColumn]
    exact ⟨rfl, h⟩

theorem shift_afterInner (base : Place) {p : Place} (h : 1 ≤ p.line) (c : Char) :
    (base.shift p).afterInner c = base.shift (p.afterInner c) ∧ 1 ≤ (p.afterInner c).line := by
  unfold afterInner
  by_cases hc : c = '\n'
  · rw [if_pos hc, if_pos hc, shift_newLine base h]
    exact ⟨rfl, Nat.le_succ_of_le h⟩
  · rw [if_neg hc, if_neg hc, shift_nextColumn]
    exact ⟨rfl, h⟩

theorem shift_foldl {step : Place → Char → Place} {base : Place}
    (hs : ∀ p c, 1 ≤ p.line → step (base.shift p) c = base.shift (step p c) ∧ 1 ≤ (step p c).line)
    (cs : List Char) {p : Place} (h : 1 ≤ p.line) :
    cs.foldl step (base.shift p) = base.shift (cs.foldl step p) ∧ 1 ≤ (cs.foldl step p).line := by
  induction cs generalizing p with
  | nil => exact ⟨rfl, h⟩
  | cons c cs ih =>
    obtain ⟨he, hl⟩ := hs p c h
    rw [List.foldl_cons, List.foldl_cons, he]
    exact ih hl

theorem shift_afterFront (base : Place) {p : Place} (h : 1 ≤ p.line) (f : Front) :
    (base.shift p).afterFront f = base.shift (p.afterFront f) ∧ 1 ≤ (p.afterFront f).line := by
  unfold afterFront
  split
  · exact shift_foldl (fun p c hp => shift_afterBlank base hp c) f.text h
  · exact shift_foldl (fun p c hp => shift_afterInner base hp c) f.text h

end Place

theorem Front.token?_shift (f : Front) (base p : Place) :
    f.token? (base.shift p) = (f.token? p).map (Token.shift base) := by
  unfold Front.token?
  split <;> rfl

theorem tokensOf_shift (base : Place) {p : Place} (h : 1 ≤ p.line) (fs : List Front) :
    tokensOf (base.shift p) fs = (tokensOf p fs).map (Token.shift base) ∧
      (base.shift p).after fs = base.shift (p.after fs) ∧ 1 ≤ (p.after fs).line := by
  induction fs generalizing p with
  | nil => exact ⟨rfl, rfl, h⟩
  | cons f fs ih =>
    obtain ⟨he, hl⟩ := Place.shift_afterFront base h f
    obtain ⟨ht, ha, hl'⟩ := ih hl
    refine ⟨?_, ?_, hl'⟩
    · rw [tokensOf, tokensOf, he, ht, List.map_append, Front.token?_shift]
      cases f.token? (p.afterFront f) <;> rfl
    · show ((base.shift p).afterFront f).after fs = base.shift ((p.afterFront f).after fs)
      rw [he, ha]

theorem tokensOf_semicolon (p : Place) (fs : List Front) (us : List Char) :
    tokensOf p (fs ++ [semicolonFront us]) =
      tokensOf p fs ++ [⟨.semicolon, ";", (p.after fs).afterInner ';'⟩] := by
  rw [tokensOf_append]
  rfl

theorem Place.after_semicolon (p : Place) (fs : List Front) (us : List Char) :
    p.after (fs ++ [semicolonFront us]) = (p.after fs).afterInner ';' := by
  rw [after_append]
  rfl

theorem Splits.semicolon {cs us : List Char} {fs : List Front} (h : Splits cs fs (';' :: us)) :
    Splits cs (fs ++ [semicolonFront us]) us :=
  h.trans (.piece (semicolonFront_longest us) (.stop us))

/-- The tokens of two texts, the first of which ends in a semicolon, are those of the one and
then those of the other. -/
theorem scan_append {p q : String} {sp sq : Scan} (hp : scan p = .ok sp)
    (he : EndsInSemicolon p) (hq : scan q = .ok sq) :
    scan (p ++ q) =
      .ok ⟨sp.tokens ++ sq.tokens.map (Token.shift sp.finish), sp.finish.shift sq.finish⟩ := by
  obtain ⟨fs, hfs⟩ := he
  obtain ⟨gs, hgs, rfl⟩ := scan_eq_ok_iff.mp hq
  rw [scan_of_splits hfs.semicolon, tokensOf_semicolon, Place.after_semicolon] at hp
  cases hp
  have hw : Splits (p ++ q).toList
      (fs.map (·.followed q.toList) ++ [semicolonFront q.toList] ++ gs) [] := by
    rw [String.toList_append]
    exact (hfs.followed ⟨[], rfl⟩ q.toList).semicolon.trans hgs
  rw [scan_of_splits hw, tokensOf_append, Place.after_append _ (_ ++ _) gs, tokensOf_semicolon,
    Place.after_semicolon, tokensOf_followed, Place.after_followed]
  obtain ⟨-, -, hline⟩ := tokensOf_shift .start (Nat.le_refl Place.start.line)
    (fs ++ [semicolonFront []])
  rw [Place.after_semicolon] at hline
  obtain ⟨ht, ha, -⟩ := tokensOf_shift ((Place.start.after fs).afterInner ';')
    (Nat.le_refl Place.start.line) gs
  rw [Place.shift_start hline] at ht ha
  rw [ht, ha]

end ExprMachine
