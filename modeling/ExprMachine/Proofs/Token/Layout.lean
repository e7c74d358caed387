import ExprMachine.Proofs.Token.Joined

/-! The same tokens with other gaps between them. A gap after a token begins with a blank, and
no piece but a comment and a string goes on over a blank, so the pieces stay what they are. -/

namespace ExprMachine

/-- Blanks, newlines and comments, each of which ends in a newline. -/
inductive Gap : List Char → Prop
  | nil : Gap []
  | blank {c : Char} {cs : List Char} : c ∈ [' ', '\t', '\r', '\n'] → Gap cs → Gap (c :: cs)
  | comment {body cs : List Char} : '\n' ∉ body → Gap cs →
    Gap ('/' :: '/' :: (body ++ '\n' :: cs))

/-- A gap that begins with a blank or newline. -/
inductive Separator : List Char → Prop
  | blank {c : Char} {cs : List Char} : c ∈ [' ', '\t', '\r', '\n'] → Gap cs → Separator (c :: cs)

/-- What may stand after a token if tokens of these texts are to follow: a gap before each, and
one at the end, which can be empty. -/
inductive LaidOutAfter : List String → List Char → Prop
  | finish : LaidOutAfter [] []
  | last {gap : List Char} : Separator gap → LaidOutAfter [] gap
  | next {gap rest : List Char} {text : String} {texts : List String} : Separator gap →
    LaidOutAfter texts rest → LaidOutAfter (text :: texts) (gap ++ (text.toList ++ rest))

/-- Tokens of these texts in order, with gaps before, between and after them. -/
inductive LaidOut : List String → List Char → Prop
  | none {gap : List Char} : Gap gap → LaidOut [] gap
  | first {gap rest : List Char} {text : String} {texts : List String} : Gap gap →
    LaidOutAfter texts rest → LaidOut (text :: texts) (gap ++ (text.toList ++ rest))

theorem Separator.gap {gap : List Char} (h : Separator gap) : Gap gap := by
  obtain ⟨hc, hg⟩ := h
  exact .blank hc hg

theorem Gap.splits {gap : List Char} (h : Gap gap) (rest : List Char) :
    ∃ fs, Splits (gap ++ rest) fs rest ∧ fs.filter (·.piece.isToken) = [] := by
  induction h with
  | nil => exact ⟨[], .stop rest, List.filter_nil⟩
  | @blank c cs hc _ ih =>
    obtain ⟨fs, hs, hf⟩ := ih
    have hfront : front c (cs ++ rest) = .ok ⟨.blank, [c], cs ++ rest⟩ := by
      simp only [front, Front.isGap_eq.mpr hc, if_true]
    exact ⟨_ :: fs, .piece (front_longest hfront) hs, hf⟩
  | @comment body cs hb _ ih =>
    obtain ⟨fs, hs, hf⟩ := ih
    have hline : ∀ c ∈ body, (c != '\n') = true := by
      intro c hc
      rw [bne_iff_ne]
      rintro rfl
      exact hb hc
    have hcomment : front '/' ('/' :: (body ++ '\n' :: (cs ++ rest))) =
        .ok ⟨.comment, '/' :: '/' :: body, '\n' :: (cs ++ rest)⟩ := by
      show Except.ok (Front.slash _) = _
      simp only [Front.slash, List.takeWhile_append_of_pos hline, List.dropWhile_append_of_pos hline]
      simp
    have hnewline : front '\n' (cs ++ rest) = .ok ⟨.blank, ['\n'], cs ++ rest⟩ := rfl
    have hall := Splits.piece (front_longest hcomment) (.piece (front_longest hnewline) hs)
    simp only [List.cons_append, List.append_assoc] at hall ⊢
    exact ⟨_, hall, hf⟩

/-- A text at which the word or number before it comes to its end. -/
def Parted (tail : List Char) : Prop := ∀ c ∈ tail.head?, c ∈ [' ', '\t', '\r', '\n']

theorem Parted.stops {tail : List Char} (h : Parted tail) {p : Char → Bool}
    (hp : [' ', '\t', '\r', '\n'].any p = false) :
    tail.takeWhile p = [] ∧ tail.dropWhile p = tail := by
  cases tail with
  | nil => exact ⟨rfl, rfl⟩
  | cons c cs =>
    have hc : ¬p c = true := List.any_eq_false.mp hp c (h c rfl)
    exact ⟨List.takeWhile_cons_of_neg hc, List.dropWhile_cons_of_neg hc⟩

theorem Parted.runs {tail : List Char} (h : Parted tail) {p : Char → Bool}
    (hp : [' ', '\t', '\r', '\n'].any p = false) {cs : List Char} (hcs : ∀ c ∈ cs, p c = true) :
    (cs ++ tail).takeWhile p = cs ∧ (cs ++ tail).dropWhile p = tail := by
  obtain ⟨ht, hd⟩ := h.stops hp
  rw [List.takeWhile_append_of_pos hcs, List.dropWhile_append_of_pos hcs, ht, hd, List.append_nil]
  exact ⟨rfl, rfl⟩

open Front

/-- A token that a blank or the end of the text stands after is a piece of its own. -/
theorem Lexeme.front_parted {kind : Kind} {text tail : List Char} (h : Lexeme (.token kind) text)
    (ht : Parted tail) : ∃ c cs, text = c :: cs ∧
      ExprMachine.front c (cs ++ tail) = .ok ⟨.token kind, text, tail⟩ := by
  cases h with
  | sign h =>
    have htail : tail = [] ∨ ∃ rest, tail = ' ' :: rest ∨ tail = '\t' :: rest ∨
        tail = '\r' :: rest ∨ tail = '\n' :: rest := by
      cases tail with
      | nil => exact .inl rfl
      | cons d rest =>
        have hd := ht d rfl
        simp only [List.mem_cons, List.not_mem_nil, or_false] at hd
        exact .inr ⟨rest, by simpa using hd⟩
    simp only [signs, List.mem_cons, Prod.mk.injEq, List.not_mem_nil, or_false] at h
    obtain ⟨rfl, rfl⟩ | ⟨rfl, rfl⟩ | ⟨rfl, rfl⟩ | ⟨rfl, rfl⟩ | ⟨rfl, rfl⟩ | ⟨rfl, rfl⟩ |
      ⟨rfl, rfl⟩ | ⟨rfl, rfl⟩ | ⟨rfl, rfl⟩ | ⟨rfl, rfl⟩ | ⟨rfl, rfl⟩ | ⟨rfl, rfl⟩ | ⟨rfl, rfl⟩ |
      ⟨rfl, rfl⟩ | ⟨rfl, rfl⟩ | ⟨rfl, rfl⟩ | ⟨rfl, rfl⟩ | ⟨rfl, rfl⟩ | ⟨rfl, rfl⟩ := h
    all_goals
      refine ⟨_, _, rfl, ?_⟩
      obtain rfl | ⟨rest, rfl | rfl | rfl | rfl⟩ := htail <;> rfl
  | @whole whole h =>
    obtain ⟨htake, hdrop⟩ := ht.runs (p := Char.isDigit) (by decide) h.2
    obtain ⟨c, r, rfl, hc⟩ := h.head
    refine ⟨c, r, rfl, ?_⟩
    rw [front_of_digit hc, ← List.cons_append, number_of_no_fraction, htake, hdrop]
    · rfl
    · intro d more hd
      rw [hdrop] at hd
      have hpoint := ht '.' (by rw [hd]; rfl)
      exact absurd hpoint (by decide)
  | @decimal whole fraction hw hf =>
    obtain ⟨htake, hdrop⟩ := ht.stops (p := Char.isDigit) (by decide)
    have hn := number_decimal hw hf tail
    rw [htake, hdrop, List.append_nil] at hn
    obtain ⟨c, r, rfl, hc⟩ := hw.head
    refine ⟨c, r ++ '.' :: fraction, rfl, ?_⟩
    simp only [List.cons_append, List.append_assoc] at hn ⊢
    rw [front_of_digit hc, hn]
    rfl
  | keyword word =>
    obtain ⟨c, cs, hs, hc, hcs⟩ := word.spelling_word
    have hall : ∀ d ∈ c :: cs, continuesWord d = true := by
      simpa [continuesWord, hc] using hcs
    obtain ⟨htake, hdrop⟩ := ht.runs (p := continuesWord) (by decide) hall
    refine ⟨c, cs, hs, ?_⟩
    have hk : Keyword.ofName? (String.ofList (c :: cs)) = some word := by
      rw [← hs, String.ofList_toList, word.ofName?_spelling]
    rw [front_of_word hc, ← List.cons_append, hs]
    simp only [Front.word, htake, hdrop, hk]
  | @name c cs hc hcs hk =>
    have hall : ∀ d ∈ c :: cs, continuesWord d = true := by
      intro d hd
      rw [continuesWord_eq]
      rcases List.mem_cons.mp hd with rfl | hd
      · exact hc.imp_right .inl
      · exact hcs d hd
    obtain ⟨htake, hdrop⟩ := ht.runs (p := continuesWord) (by decide) hall
    refine ⟨c, cs, rfl, ?_⟩
    rw [front_of_word (startsWord_eq.mpr hc), ← List.cons_append]
    simp only [Front.word, htake, hdrop, Keyword.ofName?_eq_none hk]
  | @quoted inner h =>
    have hq := quoted_closed h tail
    rw [← List.singleton_append, ← List.append_assoc] at hq
    exact ⟨'"', inner ++ ['"'], rfl, hq⟩

theorem Lexeme.longest_parted {kind : Kind} {text tail : List Char}
    (h : Lexeme (.token kind) text) (ht : Parted tail) :
    Front.Longest ⟨.token kind, text, tail⟩ := by
  obtain ⟨c, cs, -, hf⟩ := h.front_parted ht
  exact front_longest hf

theorem Splits.lexemes {cs rest : List Char} {fs : List Front} (h : Splits cs fs rest) (p : Place) :
    ∀ t ∈ tokensOf p fs, Lexeme (.token t.kind) t.text.toList := by
  induction h generalizing p with
  | stop cs =>
    intro t ht
    cases ht
  | @piece f fs cs hf _ ih =>
    intro t ht
    rw [tokensOf, List.mem_append, Option.mem_toList] at ht
    rcases ht with ht | ht
    · obtain ⟨hpiece, htext, -⟩ := Front.token?_eq_some_iff.mp ht
      rw [htext, String.toList_ofList, ← hpiece]
      exact hf.lexeme
    · exact ih _ t ht

theorem LaidOutAfter.parted {texts : List String} {cs : List Char} (h : LaidOutAfter texts cs) :
    Parted cs := by
  cases h with
  | finish => exact nofun
  | last hs =>
    obtain ⟨hc, -⟩ := hs
    rintro d ⟨⟩
    exact hc
  | next hs =>
    obtain ⟨hc, -⟩ := hs
    rintro d ⟨⟩
    exact hc

/-- Text that splits into pieces which, gaps apart, are the tokens. -/
def SplitsInto (ts : List Token) (cs : List Char) : Prop :=
  ∃ fs, Splits cs fs [] ∧ (fs.filter (·.piece.isToken)).map (fun f => (f.piece, String.ofList f.text)) =
    ts.map (fun t => (Piece.token t.kind, t.text))

theorem SplitsInto.gap {ts : List Token} {gap cs : List Char} (hg : Gap gap)
    (h : SplitsInto ts cs) : SplitsInto ts (gap ++ cs) := by
  obtain ⟨fs, hs, hf⟩ := h
  obtain ⟨gs, hgs, hgf⟩ := hg.splits cs
  exact ⟨gs ++ fs, hgs.trans hs, by rw [List.filter_append, hgf, List.nil_append, hf]⟩

theorem SplitsInto.token {t : Token} {ts : List Token} {cs : List Char}
    (ht : Lexeme (.token t.kind) t.text.toList) (hp : Parted cs) (h : SplitsInto ts cs) :
    SplitsInto (t :: ts) (t.text.toList ++ cs) := by
  obtain ⟨fs, hs, hf⟩ := h
  refine ⟨⟨.token t.kind, t.text.toList, cs⟩ :: fs, .piece (ht.longest_parted hp) hs, ?_⟩
  rw [List.filter_cons_of_pos rfl, List.map_cons, hf, List.map_cons, String.ofList_toList]

theorem LaidOutAfter.splits {ts : List Token} {cs : List Char}
    (hl : ∀ t ∈ ts, Lexeme (.token t.kind) t.text.toList)
    (h : LaidOutAfter (ts.map Token.text) cs) : SplitsInto ts cs := by
  generalize htexts : ts.map Token.text = texts at h
  induction h generalizing ts with
  | finish =>
    obtain rfl := List.map_eq_nil_iff.mp htexts
    exact ⟨[], .stop [], rfl⟩
  | last hs =>
    obtain rfl := List.map_eq_nil_iff.mp htexts
    have hnil : SplitsInto [] [] := ⟨[], .stop [], rfl⟩
    simpa using hnil.gap hs.gap
  | next hs hafter ih =>
    obtain ⟨t, us, rfl, rfl, rfl⟩ := List.map_eq_cons_iff.mp htexts
    obtain ⟨ht, hus⟩ := List.forall_mem_cons.mp hl
    exact ((ih hus rfl).token ht hafter.parted).gap hs.gap

/-- A text that scans and one that lays its tokens out in another way have the same tokens but
for their places. -/
theorem scan_laidOut {source source' : String} {s : Scan} (hs : scan source = .ok s)
    (h : LaidOut (s.tokens.map Token.text) source'.toList) :
    ∃ s', scan source' = .ok s' ∧
      s'.tokens.map (fun t => (t.kind, t.text)) = s.tokens.map (fun t => (t.kind, t.text)) := by
  obtain ⟨fs, hfs, rfl⟩ := scan_eq_ok_iff.mp hs
  have hlex := hfs.lexemes Place.start
  obtain ⟨gs, hgs, hpieces⟩ : SplitsInto (tokensOf .start fs) source'.toList := by
    generalize tokensOf .start fs = ts at h hlex
    generalize source'.toList = cs at h
    generalize htexts : ts.map Token.text = texts at h
    cases h with
    | none hg =>
      obtain rfl := List.map_eq_nil_iff.mp htexts
      have hnil : SplitsInto [] [] := ⟨[], .stop [], rfl⟩
      simpa using hnil.gap hg
    | first hg hafter =>
      obtain ⟨t, us, rfl, rfl, rfl⟩ := List.map_eq_cons_iff.mp htexts
      obtain ⟨ht, hus⟩ := List.forall_mem_cons.mp hlex
      exact ((hafter.splits hus).token ht hafter.parted).gap hg
  refine ⟨_, scan_of_splits hgs, ?_⟩
  have htexts := tokensOf_texts .start gs
  rw [hpieces] at htexts
  have hunpiece (ts : List Token) : ts.map (fun t => (Piece.token t.kind, t.text)) =
      (ts.map fun t => (t.kind, t.text)).map (Prod.map Piece.token id) := by
    rw [List.map_map]
    rfl
  rw [hunpiece, hunpiece] at htexts
  refine (List.map_inj_right ?_).mp htexts
  rintro ⟨k, u⟩ ⟨k', u'⟩ he
  cases he
  rfl

end ExprMachine
