import Mathlib.Data.List.TakeWhile
import ExprMachine.Token.Front

/-! The lexical grammar, said without a scanner: which texts are pieces, and which piece is the
longest at the front of a text. -/

namespace ExprMachine

namespace Keyword

theorem spelling_of_ofName? {name : String} {word : Keyword} (h : ofName? name = some word) :
    word.spelling = name := by
  rw [ofName?] at h
  exact eq_of_beq (List.find?_some (p := fun w : Keyword => w.spelling == name) h)

theorem ofName?_spelling (word : Keyword) : ofName? word.spelling = some word := by
  cases word <;> decide

theorem ofName?_eq_none {name : String} (h : ∀ word : Keyword, word.spelling ≠ name) :
    ofName? name = none := by
  rw [ofName?, List.find?_eq_none]
  intro word _ hw
  exact h word (eq_of_beq hw)

end Keyword

/-- The signs of one character and of two. -/
def signs : List (List Char × Kind) :=
  [(['('], .leftParen), ([')'], .rightParen), (['\x7b'], .leftBrace), (['\x7d'], .rightBrace),
    ([','], .comma), (['.'], .dot), (['-'], .minus), (['+'], .plus), ([';'], .semicolon),
    (['/'], .slash), (['*'], .star), (['!'], .bang), (['!', '='], .bangEqual),
    (['='], .equal), (['=', '='], .equalEqual), (['>'], .greater),
    (['>', '='], .greaterEqual), (['<'], .less), (['<', '='], .lessEqual)]

def Digits (cs : List Char) : Prop := cs ≠ [] ∧ ∀ c ∈ cs, c.isDigit = true

/-- The double nearest to the decimal with these digits before and after its point. -/
def decimalValue (whole fraction : List Char) : Float :=
  Decimal.toFloat ⟨digitsValue (whole ++ fraction), -(fraction.length : Int)⟩ false

inductive Lexeme : Piece → List Char → Prop
  | blank {c : Char} : c ∈ [' ', '\t', '\r', '\n'] → Lexeme .blank [c]
  | comment {body : List Char} : '\n' ∉ body → Lexeme .comment ('/' :: '/' :: body)
  | sign {text : List Char} {kind : Kind} : (text, kind) ∈ signs → Lexeme (.token kind) text
  | whole {whole : List Char} : Digits whole →
    Lexeme (.token (.number (decimalValue whole []))) whole
  | decimal {whole fraction : List Char} : Digits whole → Digits fraction →
    Lexeme (.token (.number (decimalValue whole fraction))) (whole ++ '.' :: fraction)
  | keyword (word : Keyword) : Lexeme (.token (.keyword word)) word.spelling.toList
  | name {c : Char} {cs : List Char} : (isLetter c = true ∨ c = '_') →
    (∀ d ∈ cs, isLetter d = true ∨ d = '_' ∨ d.isDigit = true) →
    (∀ word : Keyword, word.spelling ≠ String.ofList (c :: cs)) →
    Lexeme (.token (.identifier (String.ofList (c :: cs)))) (c :: cs)
  | quoted {inner : List Char} : '"' ∉ inner →
    Lexeme (.token (.string (String.ofList inner))) ('"' :: (inner ++ ['"']))

/-- No longer piece stands at the front of the text than this one. -/
structure Front.Longest (f : Front) : Prop where
  lexeme : Lexeme f.piece f.text
  longest : ∀ piece text, Lexeme piece text → text <+: f.text ++ f.rest →
    text.length ≤ f.text.length

theorem Digits.head {cs : List Char} (h : Digits cs) : ∃ c r, cs = c :: r ∧ c.isDigit = true := by
  obtain ⟨c, r, rfl⟩ := List.exists_cons_of_ne_nil h.1
  exact ⟨c, r, rfl, h.2 c (by simp)⟩

namespace Front

theorem startsWord_eq {c : Char} : startsWord c = true ↔ isLetter c = true ∨ c = '_' := by
  simp [startsWord]

theorem continuesWord_eq {c : Char} :
    continuesWord c = true ↔ isLetter c = true ∨ c = '_' ∨ c.isDigit = true := by
  simp [continuesWord, startsWord, or_assoc]

theorem isGap_eq {c : Char} : isGap c = true ↔ c ∈ [' ', '\t', '\r', '\n'] := by
  simp only [isGap, Bool.or_eq_true, beq_iff_eq, List.mem_cons, List.not_mem_nil, or_false]
  constructor
  · rintro (((h | h) | h) | h) <;> simp [h]
  · rintro (h | h | h | h) <;> simp [h]

/-- Digits, letters and the underscore are no blanks, no slash and no quote. -/
theorem ne_of_class {p : Char → Bool}
    (hp : [' ', '\t', '\r', '\n', '/', '"'].any p = false) {c : Char} (h : p c = true) :
    isGap c = false ∧ c ≠ '/' ∧ c ≠ '"' := by
  have hc : c ∉ [' ', '\t', '\r', '\n', '/', '"'] := by
    intro hm
    exact absurd h (List.any_eq_false.mp hp c hm)
  simp only [List.mem_cons, List.not_mem_nil, or_false, not_or] at hc
  obtain ⟨h₁, h₂, h₃, h₄, hs, hq⟩ := hc
  refine ⟨?_, hs, hq⟩
  simp only [isGap, beq_eq_false_iff_ne.mpr h₁, beq_eq_false_iff_ne.mpr h₂,
    beq_eq_false_iff_ne.mpr h₃, beq_eq_false_iff_ne.mpr h₄, Bool.or_false]

theorem isDigit_eq_false_of_startsWord {c : Char} (h : startsWord c = true) :
    c.isDigit = false := by
  rw [Bool.eq_false_iff]
  intro hd
  have hn : 48 ≤ c.toNat ∧ c.toNat ≤ 57 := by
    simp only [Char.isDigit, Bool.and_eq_true, decide_eq_true_eq, UInt32.le_iff_toNat_le] at hd
    exact hd
  rw [startsWord_eq] at h
  rcases h with h | rfl
  · rw [isLetter_of_ascii (by omega)] at h
    have hall : (List.range 10).all (fun n => !(Char.ofNat (48 + n)).isAlpha) = true := by decide
    have hc : Char.ofNat (48 + (c.toNat - 48)) = c := by
      rw [Nat.add_sub_cancel' hn.1, Char.ofNat_toNat]
    have ha := List.all_eq_true.mp hall (c.toNat - 48) (List.mem_range.mpr (by omega))
    rw [hc, h] at ha
    cases ha
  · exact absurd hd (by decide)

end Front

open Front

theorem front_of_digit {c : Char} (h : c.isDigit = true) (rest : List Char) :
    front c rest = .ok (number (c :: rest)) := by
  obtain ⟨hg, hs, hq⟩ := ne_of_class (p := Char.isDigit) (by decide) h
  simp only [front, hg, hs, hq, h, if_true, if_false, Bool.false_eq_true]

theorem front_of_word {c : Char} (h : startsWord c = true) (rest : List Char) :
    front c rest = .ok (word (c :: rest)) := by
  obtain ⟨hg, hs, hq⟩ := ne_of_class (p := startsWord) (by decide) h
  have hd := isDigit_eq_false_of_startsWord h
  simp only [front, hg, hs, hq, hd, h, if_true, if_false, Bool.false_eq_true]

namespace Front

theorem prefix_slash (rest : List Char) : ['/'] <+: (slash rest).text := by
  unfold slash
  split <;> exact ⟨_, rfl⟩

theorem prefix_comparison (c : Char) (alone joined : Kind) (rest : List Char) :
    [c] <+: (comparison c alone joined rest).text := by
  unfold comparison
  split <;> exact ⟨_, rfl⟩

theorem takeWhile_prefix_number (cs : List Char) :
    cs.takeWhile Char.isDigit <+: (number cs).text := by
  unfold number
  dsimp only
  split
  · split
    · exact List.prefix_append _ _
    · exact List.prefix_refl _
  · exact List.prefix_refl _

theorem number_digits {cs : List Char} (h : Digits cs) : number cs = ⟨numeral cs [], cs, []⟩ := by
  have hd : cs.dropWhile Char.isDigit = [] := List.dropWhile_eq_nil_iff.mpr h.2
  simp only [number, hd, List.takeWhile_eq_self_iff.mpr h.2]

/-- The point of a decimal ends its whole part, so only the fraction can grow. -/
theorem number_decimal {whole fraction : List Char} (hw : Digits whole) (hf : Digits fraction)
    (tail : List Char) :
    number (whole ++ '.' :: (fraction ++ tail)) =
      ⟨numeral whole (fraction ++ tail.takeWhile Char.isDigit),
        whole ++ '.' :: (fraction ++ tail.takeWhile Char.isDigit),
        tail.dropWhile Char.isDigit⟩ := by
  obtain ⟨d, more, rfl, hd⟩ := hf.head
  have hmore : ∀ c ∈ more, c.isDigit = true := fun c hc => hf.2 c (by simp [hc])
  have hp : Char.isDigit '.' = false := by decide
  have ht : (whole ++ '.' :: (d :: more ++ tail)).takeWhile Char.isDigit = whole := by
    rw [List.takeWhile_append_of_pos hw.2, List.takeWhile_cons, hp]
    simp
  have hr : (whole ++ '.' :: (d :: more ++ tail)).dropWhile Char.isDigit =
      '.' :: d :: (more ++ tail) := by
    rw [List.dropWhile_append_of_pos hw.2, List.dropWhile_cons, hp]
    simp
  unfold number
  rw [ht, hr]
  simp only [hd, if_true, List.takeWhile_append_of_pos hmore,
    List.dropWhile_append_of_pos hmore, List.cons_append]

theorem word_text {cs : List Char} (h : ∀ c ∈ cs, continuesWord c = true) (tail : List Char) :
    (word (cs ++ tail)).text = cs ++ tail.takeWhile continuesWord :=
  List.takeWhile_append_of_pos h

theorem word_piece (cs : List Char) :
    (word cs).piece = .token (((Keyword.ofName? (String.ofList (word cs).text)).map .keyword).getD
      (.identifier (String.ofList (word cs).text))) := by
  simp only [word]
  cases Keyword.ofName? (String.ofList (cs.takeWhile continuesWord)) <;> rfl

theorem quoted_closed {inner : List Char} (h : '"' ∉ inner) (tail : List Char) :
    quoted (inner ++ '"' :: tail) =
      .ok ⟨.token (.string (String.ofList inner)), '"' :: (inner ++ ['"']), tail⟩ := by
  have hq : ∀ c ∈ inner, (c != '"') = true := by
    intro c hc
    rw [bne_iff_ne]
    rintro rfl
    exact h hc
  have hd : (inner ++ '"' :: tail).dropWhile (· != '"') = '"' :: tail := by
    rw [List.dropWhile_append_of_pos hq, List.dropWhile_cons]
    simp
  have ht : (inner ++ '"' :: tail).takeWhile (· != '"') = inner := by
    rw [List.takeWhile_append_of_pos hq, List.takeWhile_cons]
    simp
  simp only [quoted, hd, ht, List.cons_append]

end Front

theorem Keyword.spelling_word (word : Keyword) : ∃ c cs, word.spelling.toList = c :: cs ∧
    startsWord c = true ∧ cs.all continuesWord = true := by
  cases word <;> refine ⟨_, _, rfl, ?_, ?_⟩ <;> decide

/-- Whatever follows a lexeme, the piece read at its front is at least as long; and nothing
but this lexeme is read when nothing follows. -/
theorem Lexeme.front {piece : Piece} {text : List Char} (h : Lexeme piece text)
    (tail : List Char) : ∃ c cs f, text = c :: cs ∧ front c (cs ++ tail) = .ok f ∧
      text <+: f.text ∧ (tail = [] → f.piece = piece) := by
  cases h with
  | @blank c h =>
    refine ⟨c, [], ⟨.blank, [c], tail⟩, rfl, ?_, List.prefix_refl _, fun _ => rfl⟩
    simp only [ExprMachine.front, isGap_eq.mpr h, if_true, List.nil_append]
  | @comment body h =>
    have hb : ∀ c ∈ body, (c != '\n') = true := by
      intro c hc
      rw [bne_iff_ne]
      rintro rfl
      exact h hc
    refine ⟨'/', '/' :: body, slash ('/' :: (body ++ tail)), rfl, rfl, ?_, fun _ => rfl⟩
    simp only [slash, List.takeWhile_append_of_pos hb]
    exact ⟨_, rfl⟩
  | @sign text kind h =>
    simp only [signs, List.mem_cons, Prod.mk.injEq, List.not_mem_nil, or_false] at h
    obtain ⟨rfl, rfl⟩ | ⟨rfl, rfl⟩ | ⟨rfl, rfl⟩ | ⟨rfl, rfl⟩ | ⟨rfl, rfl⟩ | ⟨rfl, rfl⟩ |
      ⟨rfl, rfl⟩ | ⟨rfl, rfl⟩ | ⟨rfl, rfl⟩ | ⟨rfl, rfl⟩ | ⟨rfl, rfl⟩ | ⟨rfl, rfl⟩ | ⟨rfl, rfl⟩ |
      ⟨rfl, rfl⟩ | ⟨rfl, rfl⟩ | ⟨rfl, rfl⟩ | ⟨rfl, rfl⟩ | ⟨rfl, rfl⟩ | ⟨rfl, rfl⟩ := h
    all_goals refine ⟨_, _, _, rfl, rfl, ?_, ?_⟩
    all_goals first
      | exact List.prefix_refl _
      | exact prefix_slash _
      | exact prefix_comparison _ _ _ _
      | rintro rfl; rfl
  | @whole whole h =>
    obtain ⟨c, r, rfl, hc⟩ := h.head
    refine ⟨c, r, number (c :: (r ++ tail)), rfl, front_of_digit hc _, ?_, ?_⟩
    · refine List.IsPrefix.trans ?_ (takeWhile_prefix_number _)
      rw [← List.cons_append, List.takeWhile_append_of_pos h.2]
      exact List.prefix_append _ _
    · rintro rfl
      rw [List.append_nil, number_digits h]
      rfl
  | @decimal whole fraction hw hf =>
    obtain ⟨c, r, rfl, hc⟩ := hw.head
    refine ⟨c, r ++ '.' :: fraction, _, rfl, front_of_digit hc _, ?_, ?_⟩
    · have hn := number_decimal hw hf tail
      simp only [List.cons_append, List.append_assoc] at hn ⊢
      rw [hn]
      simp
    · rintro rfl
      have hn := number_decimal hw hf []
      simp only [List.append_nil, List.takeWhile_nil, List.cons_append] at hn ⊢
      rw [hn]
      rfl
  | keyword word =>
    obtain ⟨c, cs, hs, hc, hcs⟩ := word.spelling_word
    have hall : ∀ d ∈ c :: cs, continuesWord d = true := by
      simpa [continuesWord, hc] using hcs
    refine ⟨c, cs, _, hs, front_of_word hc _, ?_, ?_⟩
    · rw [← List.cons_append, word_text hall, hs]
      exact List.prefix_append _ _
    · rintro rfl
      rw [← List.cons_append, word_piece, word_text hall, List.takeWhile_nil, List.append_nil, ← hs,
        String.ofList_toList, word.ofName?_spelling]
      rfl
  | @name c cs hc hcs hk =>
    have hall : ∀ d ∈ c :: cs, continuesWord d = true := by
      intro d hd
      rw [continuesWord_eq]
      rcases List.mem_cons.mp hd with rfl | hd
      · exact hc.imp_right .inl
      · exact hcs d hd
    refine ⟨c, cs, _, rfl, front_of_word (startsWord_eq.mpr hc) _, ?_, ?_⟩
    · rw [← List.cons_append, word_text hall]
      exact List.prefix_append _ _
    · rintro rfl
      rw [← List.cons_append, word_piece, word_text hall, List.takeWhile_nil, List.append_nil,
        Keyword.ofName?_eq_none hk]
      rfl
  | @quoted inner h =>
    have hq := quoted_closed h tail
    rw [← List.singleton_append, ← List.append_assoc] at hq
    exact ⟨'"', inner ++ ['"'], _, rfl, hq, List.prefix_refl _, fun _ => rfl⟩

namespace Front

theorem slash_lexeme (rest : List Char) :
    Lexeme (slash rest).piece (slash rest).text ∧
      (slash rest).text ++ (slash rest).rest = '/' :: rest := by
  unfold slash
  split
  · refine ⟨.comment ?_, ?_⟩
    · intro hm
      exact absurd (List.mem_takeWhile_imp hm) (by decide)
    · simp only [List.cons_append, List.takeWhile_append_dropWhile]
  · exact ⟨.sign (by simp [signs]), rfl⟩

theorem quoted_lexeme {rest : List Char} {f : Front} (h : quoted rest = .ok f) :
    Lexeme f.piece f.text ∧ f.text ++ f.rest = '"' :: rest := by
  unfold quoted at h
  split at h
  · cases h
  · next c after hd =>
    cases h
    have hc : c = '"' := by
      have hn := List.head?_dropWhile_not (· != '"') rest
      rw [hd] at hn
      simpa using hn
    subst hc
    refine ⟨.quoted ?_, ?_⟩
    · intro hm
      exact absurd (List.mem_takeWhile_imp hm) (by decide)
    · have ht := List.takeWhile_append_dropWhile (p := (· != '"')) (l := rest)
      rw [hd] at ht
      simp only [List.cons_append, List.append_assoc, List.nil_append, ht]

theorem comparison_lexeme {c : Char} {alone joined : Kind} (h : comparison? c = some (alone, joined))
    (rest : List Char) :
    Lexeme (comparison c alone joined rest).piece (comparison c alone joined rest).text ∧
      (comparison c alone joined rest).text ++ (comparison c alone joined rest).rest =
        c :: rest := by
  have hs : ([c], alone) ∈ signs ∧ ([c, '='], joined) ∈ signs := by
    unfold comparison? at h
    split at h <;> cases h <;> simp [signs]
  unfold comparison
  split
  · exact ⟨.sign hs.2, rfl⟩
  · exact ⟨.sign hs.1, rfl⟩

theorem number_lexeme {c : Char} (h : c.isDigit = true) (rest : List Char) :
    Lexeme (number (c :: rest)).piece (number (c :: rest)).text ∧
      (number (c :: rest)).text ++ (number (c :: rest)).rest = c :: rest := by
  have hw : Digits ((c :: rest).takeWhile Char.isDigit) := by
    refine ⟨?_, fun d hd => List.mem_takeWhile_imp hd⟩
    rw [List.takeWhile_cons, if_pos h]
    exact List.cons_ne_nil _ _
  have hs := List.takeWhile_append_dropWhile (p := Char.isDigit) (l := c :: rest)
  unfold number
  dsimp only
  split
  · next d more hd =>
    rw [hd] at hs
    split
    · next hdigit =>
      have hf : Digits (d :: more.takeWhile Char.isDigit) := by
        refine ⟨List.cons_ne_nil _ _, ?_⟩
        intro e he
        rcases List.mem_cons.mp he with rfl | he
        · exact hdigit
        · exact List.mem_takeWhile_imp he
      refine ⟨.decimal hw hf, ?_⟩
      simp only [List.append_assoc, List.cons_append, List.takeWhile_append_dropWhile]
      exact hs
    · refine ⟨.whole hw, ?_⟩
      rw [hd]
      exact hs
  · exact ⟨.whole hw, hs⟩

theorem word_lexeme {c : Char} (h : startsWord c = true) (rest : List Char) :
    Lexeme (word (c :: rest)).piece (word (c :: rest)).text ∧
      (word (c :: rest)).text ++ (word (c :: rest)).rest = c :: rest := by
  refine ⟨?_, List.takeWhile_append_dropWhile⟩
  have hc : continuesWord c = true := by simp only [continuesWord, h, Bool.true_or]
  have ht : (word (c :: rest)).text = c :: rest.takeWhile continuesWord := by
    simp only [word, List.takeWhile_cons, hc, if_true]
  have hall : ∀ d ∈ rest.takeWhile continuesWord, isLetter d = true ∨ d = '_' ∨ d.isDigit = true :=
    fun d hd => continuesWord_eq.mp (List.mem_takeWhile_imp hd)
  rw [word_piece, ht]
  cases hk : Keyword.ofName? (String.ofList (c :: rest.takeWhile continuesWord)) with
  | some word =>
    have hl := Lexeme.keyword word
    rw [Keyword.spelling_of_ofName? hk, String.toList_ofList] at hl
    exact hl
  | none =>
    refine .name (startsWord_eq.mp h) hall ?_
    intro word hw
    rw [← hw, word.ofName?_spelling] at hk
    cases hk

end Front

theorem front_sound {c : Char} {rest : List Char} {f : Front} (h : front c rest = .ok f) :
    Lexeme f.piece f.text ∧ f.text ++ f.rest = c :: rest := by
  unfold front at h
  split at h
  · next hc => cases h; exact ⟨.blank (isGap_eq.mp hc), rfl⟩
  split at h
  · next hc => cases h; subst hc; exact slash_lexeme rest
  split at h
  · next hc => subst hc; exact quoted_lexeme h
  split at h
  · next hc => cases h; exact number_lexeme hc rest
  split at h
  · next hc => cases h; exact word_lexeme hc rest
  split at h
  · next kind _ hc =>
    cases h
    refine ⟨.sign ?_, rfl⟩
    unfold sign? at hc
    split at hc <;> cases hc <;> simp [signs]
  · next hc => cases h; exact comparison_lexeme hc rest
  · cases h

theorem front_longest {c : Char} {rest : List Char} {f : Front} (h : front c rest = .ok f) :
    f.Longest := by
  obtain ⟨hl, he⟩ := front_sound h
  refine ⟨hl, ?_⟩
  rintro piece text hp ⟨tail, ht⟩
  obtain ⟨d, cs, g, rfl, hg, hpre, -⟩ := hp.front tail
  rw [he, List.cons_append, List.cons.injEq] at ht
  obtain ⟨rfl, rfl⟩ := ht
  rw [h] at hg
  cases hg
  exact hpre.length_le

/-- Two pieces that both are the longest at the front of a text are one. -/
theorem Front.Longest.front {f : Front} (h : f.Longest) :
    ∃ c rest, f.text ++ f.rest = c :: rest ∧ front c rest = .ok f := by
  obtain ⟨c, cs, g, ht, hg, hpre, -⟩ := h.lexeme.front f.rest
  have he : f.text ++ f.rest = c :: (cs ++ f.rest) := by rw [ht, List.cons_append]
  refine ⟨c, cs ++ f.rest, he, ?_⟩
  obtain ⟨hgl, hge⟩ := front_sound hg
  have hlen := h.longest g.piece g.text hgl ⟨g.rest, by rw [hge, he]⟩
  have htext : f.text = g.text := hpre.eq_of_length_le hlen
  have hrest : f.rest = g.rest := by
    rw [← he, ← htext] at hge
    exact (List.append_cancel_left hge).symm
  have hpiece : f.piece = g.piece := by
    obtain ⟨d, ds, k, hd, hk, -, hkp⟩ := h.lexeme.front []
    obtain ⟨e, es, l, hes, hl, -, hlp⟩ := hgl.front []
    rw [← htext, hd] at hes
    cases hes
    rw [hk] at hl
    cases hl
    rw [← hkp rfl, ← hlp rfl]
  rw [hg]
  cases f
  cases g
  cases htext
  cases hrest
  cases hpiece
  rfl

/-- No piece at all stands at the front of the text. -/
def Stuck (cs : List Char) : Prop := ∀ piece text, Lexeme piece text → ¬ text <+: cs

theorem front_stuck {c : Char} {rest : List Char} {fault : LexicalFault}
    (h : front c rest = .error fault) : Stuck (c :: rest) := by
  rintro piece text hp ⟨tail, ht⟩
  obtain ⟨d, cs, g, rfl, hg, -, -⟩ := hp.front tail
  rw [List.cons_append, List.cons.injEq] at ht
  obtain ⟨rfl, rfl⟩ := ht
  rw [h] at hg
  cases hg

/-- The only text that starts well and still leads nowhere is an open string. -/
theorem front_fault {c : Char} {rest : List Char} {fault : LexicalFault}
    (h : front c rest = .error fault) :
    fault = if c = '"' then .unterminated else .unexpected c := by
  by_cases hq : c = '"'
  · subst hq
    have hr : quoted rest = .error fault := h
    unfold quoted at hr
    split at hr <;> cases hr
    rfl
  · rw [if_neg hq]
    unfold front at h
    rw [if_neg hq] at h
    repeat' split at h
    all_goals cases h
    rfl

/-- A numeral without sign and exponent: digits, at least one, and at most one point. -/
def Decimal.read? (text : List Char) : Option Decimal :=
  let whole := text.takeWhile (· != '.')
  let fraction := (text.dropWhile (· != '.')).tail
  if whole ++ fraction ≠ [] ∧ (whole ++ fraction).all Char.isDigit then
    some ⟨digitsValue (whole ++ fraction), -(fraction.length : Int)⟩
  else none

theorem Digits.ne_point {cs : List Char} (h : Digits cs) : ∀ c ∈ cs, (c != '.') = true := by
  intro c hc
  rw [bne_iff_ne]
  rintro rfl
  exact absurd (h.2 _ hc) (by decide)

theorem Decimal.read?_whole {whole : List Char} (h : Digits whole) :
    read? whole = some ⟨digitsValue (whole ++ []), -(([] : List Char).length : Int)⟩ := by
  have ht := List.takeWhile_eq_self_iff.mpr h.ne_point
  have hd := List.dropWhile_eq_nil_iff.mpr h.ne_point
  simp only [read?, ht, hd, List.tail_nil, List.append_nil]
  rw [if_pos ⟨h.1, List.all_eq_true.mpr h.2⟩]

theorem Decimal.read?_decimal {whole fraction : List Char} (hw : Digits whole)
    (hf : Digits fraction) : read? (whole ++ '.' :: fraction) =
      some ⟨digitsValue (whole ++ fraction), -(fraction.length : Int)⟩ := by
  have ht : (whole ++ '.' :: fraction).takeWhile (· != '.') = whole := by
    rw [List.takeWhile_append_of_pos hw.ne_point, List.takeWhile_cons]
    simp
  have hd : (whole ++ '.' :: fraction).dropWhile (· != '.') = '.' :: fraction := by
    rw [List.dropWhile_append_of_pos hw.ne_point, List.dropWhile_cons]
    simp
  have hall : (whole ++ fraction).all Char.isDigit = true := by
    rw [List.all_append, List.all_eq_true.mpr hw.2, List.all_eq_true.mpr hf.2]
    rfl
  simp only [read?, ht, hd, List.tail_cons]
  rw [if_pos ⟨List.append_ne_nil_of_left_ne_nil hw.1 _, hall⟩]

/-- The literal of a token is what its text says, and a number can always be read. -/
def Token.Faithful (t : Token) : Prop :=
  match t.kind with
  | .identifier name => t.text = name
  | .string inner => t.text.toList = '"' :: (inner.toList ++ ['"'])
  | .number value => ∃ d, Decimal.read? t.text.toList = some d ∧ value = d.toFloat false
  | .keyword word => t.text = word.spelling
  | kind => (t.text.toList, kind) ∈ signs

theorem Lexeme.faithful {kind : Kind} {text : List Char} (h : Lexeme (.token kind) text)
    (place : Place) : Token.Faithful ⟨kind, String.ofList text, place⟩ := by
  cases h with
  | sign h =>
    rw [← String.toList_ofList (l := text)] at h
    cases kind
    case identifier | string | number | keyword => simp [signs] at h
    all_goals exact h
  | whole h =>
    refine ⟨_, ?_, rfl⟩
    rw [String.toList_ofList]
    exact Decimal.read?_whole h
  | decimal hw hf =>
    refine ⟨_, ?_, rfl⟩
    rw [String.toList_ofList]
    exact Decimal.read?_decimal hw hf
  | keyword word => exact String.ofList_toList
  | name => exact rfl
  | quoted => simp [Token.Faithful]

end ExprMachine
