import ExprMachine.Proofs.Token.Splitting

/-! Where the tokens of a text stand. A token has the line of its last character, and no token
ends in a blank, so the newlines before that character count the lines before it. -/

namespace ExprMachine

/-- The token has this number among the tokens of the text, and its last character is the first
one of `after`. -/
def TokenAt (text : List Char) (number : Nat) (t : Token) (before after : List Char) : Prop :=
  ∃ fs f gs, Splits text (fs ++ f :: gs) [] ∧ (fs.filter (·.piece.isToken)).length = number ∧
    f.token? t.place = some t ∧ text = before ++ after ∧
    before = fs.flatMap Front.text ++ f.text.dropLast

theorem tokensOf_getElem? {p : Place} {fs : List Front} {number : Nat} {t : Token}
    (h : (tokensOf p fs)[number]? = some t) :
    ∃ before f after, fs = before ++ f :: after ∧
      (before.filter (·.piece.isToken)).length = number ∧
      f.token? (p.after (before ++ [f])) = some t := by
  induction fs generalizing p number with
  | nil => cases h
  | cons f fs ih =>
    rw [tokensOf] at h
    cases ht : f.token? (p.afterFront f) with
    | none =>
      rw [ht] at h
      have hgap := Front.token?_eq_none_iff.mp ht
      obtain ⟨before, g, after, rfl, hn, hg⟩ := ih h
      refine ⟨f :: before, g, after, rfl, ?_, hg⟩
      rw [List.filter_cons_of_neg (by simp only [hgap, Bool.false_eq_true, not_false_eq_true]), hn]
    | some u =>
      rw [ht] at h
      cases number with
      | zero =>
        cases h
        exact ⟨[], f, fs, rfl, rfl, ht⟩
      | succ number =>
        obtain ⟨htoken, -⟩ := Front.token?_eq_some_iff.mp ht
        obtain ⟨before, g, after, rfl, hn, hg⟩ := ih h
        refine ⟨f :: before, g, after, rfl, ?_, hg⟩
        rw [List.filter_cons_of_pos (by rw [htoken]; rfl), List.length_cons, hn]

theorem Lexeme.last_not_gap {kind : Kind} {text : List Char} (h : Lexeme (.token kind) text) :
    ∃ init c, text = init ++ [c] ∧ Front.isGap c = false := by
  have hlast {cs : List Char} (hcs : cs.getLast?.any (!Front.isGap ·) = true) :
      ∃ init c, cs = init ++ [c] ∧ Front.isGap c = false := by
    obtain ⟨c, hc, hgap⟩ := (Option.any_eq_true ..).mp hcs
    obtain ⟨init, rfl⟩ := List.getLast?_eq_some_iff.mp hc
    exact ⟨init, c, rfl, by simpa using hgap⟩
  have hall {cs : List Char} (hne : cs ≠ []) (hcs : ∀ c ∈ cs, Front.continuesWord c = true) :
      ∃ init c, cs = init ++ [c] ∧ Front.isGap c = false := by
    refine ⟨cs.dropLast, cs.getLast hne, (List.dropLast_concat_getLast hne).symm, ?_⟩
    exact (Front.ne_of_class (p := Front.continuesWord) (by decide) (hcs _ (List.getLast_mem hne))).1
  have hdigit {cs : List Char} (hcs : Digits cs) :
      ∃ init c, cs = init ++ [c] ∧ Front.isGap c = false :=
    hall hcs.1 fun c hc => Front.continuesWord_eq.mpr (.inr (.inr (hcs.2 c hc)))
  cases h with
  | sign hs =>
    have hsigns : signs.all (fun s => s.1.getLast?.any (!Front.isGap ·)) = true := by decide
    exact hlast (List.all_eq_true.mp hsigns _ hs)
  | whole hw => exact hdigit hw
  | @decimal whole fraction _ hf =>
    obtain ⟨init, c, rfl, hc⟩ := hdigit hf
    exact ⟨whole ++ '.' :: init, c, by simp, hc⟩
  | keyword word => exact hlast (by cases word <;> decide)
  | name hc hcs =>
    refine hall (List.cons_ne_nil _ _) (List.forall_mem_cons.mpr ⟨?_, ?_⟩)
    · exact Front.continuesWord_eq.mpr (hc.imp_right .inl)
    · exact fun d hd => Front.continuesWord_eq.mpr (hcs d hd)
  | @quoted inner _ => exact ⟨'"' :: inner, '"', rfl, by decide⟩

theorem Front.ne_newline_of_not_gap {c : Char} (h : isGap c = false) : c ≠ '\n' := by
  rintro rfl
  cases h

theorem Stuck.not_gap {c : Char} {rest : List Char} (h : Stuck (c :: rest)) :
    Front.isGap c = false := by
  by_contra hgap
  exact h .blank [c] (.blank (Front.isGap_eq.mp (by simpa using hgap))) ⟨rest, rfl⟩

/-- Every token of a text stands somewhere in it, and has the line of its last character. -/
theorem tokenAt_of_scan {source : String} {s : Scan} (hs : scan source = .ok s) {number : Nat}
    {t : Token} (ht : s.tokens[number]? = some t) :
    ∃ before c after, TokenAt source.toList number t before (c :: after) ∧
      t.place.line = 1 + before.count '\n' := by
  obtain ⟨fs, hfs, rfl⟩ := scan_eq_ok_iff.mp hs
  obtain ⟨first, f, rest, rfl, hn, hf⟩ := tokensOf_getElem? ht
  obtain ⟨hpiece, -, hplace⟩ := Front.token?_eq_some_iff.mp hf
  have hlexeme := (hfs.longest f (by simp)).lexeme
  rw [hpiece] at hlexeme
  obtain ⟨init, c, htext, hgap⟩ := hlexeme.last_not_gap
  have hc := Front.ne_newline_of_not_gap hgap
  refine ⟨first.flatMap Front.text ++ init, c, rest.flatMap Front.text, ?_, ?_⟩
  · refine ⟨first, f, rest, hfs, hn, by rw [hplace]; exact hf, ?_, by rw [htext, List.dropLast_concat]⟩
    rw [hfs.text]
    simp [htext]
  · rw [hplace, Place.line_after]
    simp [htext, List.count_cons_of_ne hc, Place.start]

end ExprMachine
