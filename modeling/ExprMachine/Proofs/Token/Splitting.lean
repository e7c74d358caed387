import ExprMachine.Proofs.Token.Lexemes
import ExprMachine.Token.Description

/-! A scan splits its text, from left to right, into longest pieces. -/

namespace ExprMachine

/-- The text splits into these pieces, and the last text is left. -/
inductive Splits : List Char → List Front → List Char → Prop
  | stop (cs : List Char) : Splits cs [] cs
  | piece {f : Front} {fs : List Front} {cs : List Char} :
    f.Longest → Splits f.rest fs cs → Splits (f.text ++ f.rest) (f :: fs) cs

def Place.after (p : Place) (fs : List Front) : Place := fs.foldl Place.afterFront p

/-- The tokens among the pieces, each with the place of its last character. -/
def tokensOf (p : Place) : List Front → List Token
  | [] => []
  | f :: fs => (f.token? (p.afterFront f)).toList ++ tokensOf (p.afterFront f) fs

def Piece.isToken : Piece → Bool
  | .token _ => true
  | _ => false

theorem Front.token?_eq_some_iff {f : Front} {place : Place} {t : Token} :
    f.token? place = some t ↔
      f.piece = .token t.kind ∧ t.text = String.ofList f.text ∧ t.place = place := by
  obtain ⟨kind, text, tokenPlace⟩ := t
  unfold token?
  cases hp : f.piece with
  | token k =>
    simp only [Option.some.injEq, Token.mk.injEq, Piece.token.injEq, eq_comm]
  | blank | comment => simp

theorem Front.token?_eq_none_iff {f : Front} {place : Place} :
    f.token? place = none ↔ f.piece.isToken = false := by
  unfold token?
  cases hp : f.piece <;> simp [Piece.isToken]

theorem Splits.longest {cs rest : List Char} {fs : List Front} (h : Splits cs fs rest) :
    ∀ f ∈ fs, f.Longest := by
  induction h with
  | stop cs => exact List.forall_mem_nil _
  | piece hf _ ih => exact List.forall_mem_cons.mpr ⟨hf, ih⟩

theorem Splits.text {cs rest : List Char} {fs : List Front} (h : Splits cs fs rest) :
    cs = fs.flatMap Front.text ++ rest := by
  induction h with
  | stop cs => rfl
  | piece _ _ ih => rw [List.flatMap_cons, List.append_assoc, ← ih]

theorem Place.line_afterFront (p : Place) (f : Front) :
    (p.afterFront f).line = p.line + f.text.count '\n' := by
  have hfold {step : Place → Char → Place}
      (hs : ∀ p c, (step p c).line = p.line + if c = '\n' then 1 else 0) (cs : List Char) (p : Place) :
      (cs.foldl step p).line = p.line + cs.count '\n' := by
    induction cs generalizing p with
    | nil => rfl
    | cons c cs ih =>
      rw [List.foldl_cons, ih, hs, List.count_cons, Nat.add_assoc]
      simp only [beq_iff_eq]
      omega
  unfold afterFront
  split
  · refine hfold (fun p c => ?_) f.text p
    unfold afterBlank
    split <;> rfl
  · refine hfold (fun p c => ?_) f.text p
    unfold afterInner
    split <;> rfl

theorem Place.line_after (p : Place) (fs : List Front) :
    (p.after fs).line = p.line + (fs.flatMap Front.text).count '\n' := by
  induction fs generalizing p with
  | nil => rfl
  | cons f fs ih =>
    have h : (p.after (f :: fs)).line = ((p.afterFront f).after fs).line := rfl
    rw [h, ih, p.line_afterFront, List.flatMap_cons, List.count_append, Nat.add_assoc]

theorem tokensOf_texts (p : Place) (fs : List Front) :
    (tokensOf p fs).map (fun t => (Piece.token t.kind, t.text)) =
      (fs.filter (·.piece.isToken)).map (fun f => (f.piece, String.ofList f.text)) := by
  induction fs generalizing p with
  | nil => rfl
  | cons f fs ih =>
    obtain ⟨piece, text, rest⟩ := f
    rw [tokensOf, List.map_append, ih]
    cases piece <;> rfl

theorem scanFrom_of_ok {c : Char} {rest : List Char} {f : Front} (h : front c rest = .ok f)
    (p : Place) (found : Array Token) :
    scanFrom p found (c :: rest) =
      scanFrom (p.afterFront f) (found ++ (f.token? (p.afterFront f)).toArray) f.rest := by
  rw [scanFrom]
  split
  · next hr => rw [h] at hr; cases hr
  · next hr =>
    rw [h] at hr
    cases hr
    dsimp only
    split
    · next ht => simp [ht]
    · next ht => simp [ht]

theorem scanFrom_of_error {c : Char} {rest : List Char} {fault : LexicalFault}
    (h : front c rest = .error fault) (p : Place) (found : Array Token) :
    scanFrom p found (c :: rest) = .error ⟨fault, p.afterInner c⟩ := by
  rw [scanFrom]
  split
  · next hr => rw [h] at hr; cases hr; rfl
  · next hr => rw [h] at hr; cases hr

theorem scanFrom_splits {cs rest : List Char} {fs : List Front} (h : Splits cs fs rest)
    (p : Place) (found : Array Token) :
    scanFrom p found cs = scanFrom (p.after fs) (found ++ (tokensOf p fs).toArray) rest := by
  induction h generalizing p found with
  | stop cs => simp [Place.after, tokensOf]
  | @piece f fs cs hf _ ih =>
    obtain ⟨c, r, he, hr⟩ := hf.front
    have ht : (tokensOf p (f :: fs)).toArray =
        (f.token? (p.afterFront f)).toArray ++ (tokensOf (p.afterFront f) fs).toArray := by
      cases h : f.token? (p.afterFront f) <;> simp [tokensOf, h]
    rw [he, scanFrom_of_ok hr, ih, ht, Array.append_assoc]
    rfl

/-- Every text splits up to its end, or up to a place where no piece stands. -/
theorem exists_splits (cs : List Char) :
    ∃ fs, Splits cs fs [] ∨ ∃ c rest fault, Splits cs fs (c :: rest) ∧ front c rest = .error fault := by
  induction hn : cs.length using Nat.strongRecOn generalizing cs with
  | ind n ih =>
    subst hn
    cases cs with
    | nil => exact ⟨[], .inl (.stop [])⟩
    | cons c rest =>
      cases hf : front c rest with
      | error fault => exact ⟨[], .inr ⟨c, rest, fault, .stop _, hf⟩⟩
      | ok f =>
        have hlen := front_rest_length_le hf
        have hl := front_longest hf
        have he := (front_sound hf).2
        obtain ⟨fs, h | ⟨d, r, fault, h, hd⟩⟩ :=
          ih f.rest.length (by simpa using Nat.lt_succ_of_le hlen) f.rest rfl
        · exact ⟨f :: fs, .inl (he ▸ .piece hl h)⟩
        · exact ⟨f :: fs, .inr ⟨d, r, fault, he ▸ .piece hl h, hd⟩⟩

theorem scan_of_splits {source : String} {fs : List Front} (h : Splits source.toList fs []) :
    scan source = .ok ⟨tokensOf .start fs, Place.start.after fs⟩ := by
  rw [scan, scanFrom_splits h, scanFrom]
  simp

theorem scan_of_stuck {source : String} {fs : List Front} {c : Char} {rest : List Char}
    (h : Splits source.toList fs (c :: rest)) (hs : Stuck (c :: rest)) :
    scan source = .error ⟨if c = '"' then .unterminated else .unexpected c,
      (Place.start.after fs).afterInner c⟩ := by
  rw [scan, scanFrom_splits h]
  cases hf : front c rest with
  | error fault => rw [scanFrom_of_error hf, front_fault hf]
  | ok f =>
    obtain ⟨hl, he⟩ := front_sound hf
    exact absurd ⟨f.rest, he⟩ (hs f.piece f.text hl)

theorem scan_eq_ok_iff {source : String} {s : Scan} : scan source = .ok s ↔
    ∃ fs, Splits source.toList fs [] ∧ s = ⟨tokensOf .start fs, Place.start.after fs⟩ := by
  constructor
  · intro hs
    obtain ⟨fs, h | ⟨c, rest, fault, h, hc⟩⟩ := exists_splits source.toList
    · rw [scan_of_splits h] at hs
      cases hs
      exact ⟨fs, h, rfl⟩
    · rw [scan_of_stuck h (front_stuck hc)] at hs
      cases hs
  · rintro ⟨fs, h, rfl⟩
    exact scan_of_splits h

theorem scan_eq_error_iff {source : String} {e : LexicalError} : scan source = .error e ↔
    ∃ fs c rest, Splits source.toList fs (c :: rest) ∧ Stuck (c :: rest) ∧
      e = ⟨if c = '"' then .unterminated else .unexpected c,
        (Place.start.after fs).afterInner c⟩ := by
  constructor
  · intro hs
    obtain ⟨fs, h | ⟨c, rest, fault, h, hc⟩⟩ := exists_splits source.toList
    · rw [scan_of_splits h] at hs
      cases hs
    · rw [scan_of_stuck h (front_stuck hc)] at hs
      cases hs
      exact ⟨fs, c, rest, h, front_stuck hc, rfl⟩
  · rintro ⟨fs, c, rest, h, hs, rfl⟩
    exact scan_of_stuck h hs

theorem Front.Longest.faithful {f : Front} (h : f.Longest) {place : Place} {t : Token}
    (ht : f.token? place = some t) : t.Faithful := by
  have hl := h.lexeme
  unfold Front.token? at ht
  split at ht
  · next hp =>
    cases ht
    rw [hp] at hl
    exact hl.faithful place
  · cases ht

theorem Splits.faithful {cs rest : List Char} {fs : List Front} (h : Splits cs fs rest)
    (p : Place) : ∀ t ∈ tokensOf p fs, t.Faithful := by
  induction h generalizing p with
  | stop cs =>
    intro t ht
    cases ht
  | piece hf _ ih =>
    intro t ht
    rw [tokensOf, List.mem_append, Option.mem_toList] at ht
    rcases ht with ht | ht
    · exact hf.faithful ht
    · exact ih _ t ht

/-- The scanner finds the longest pieces from left to right, or else the first place where
no piece stands; the pieces make up the text, and no numeral is beyond reading. The end of the
text is shown once, after the tokens. -/
theorem scan_lossless (source : String) :
    (∀ s, scan source = .ok s ↔
      ∃ fs, Splits source.toList fs [] ∧ s = ⟨tokensOf .start fs, Place.start.after fs⟩) ∧
    (∀ s, scan source = .ok s → s.descriptions =
      s.tokens.map Token.description ++ [describe "Eof" "" "None" s.finish]) ∧
    (∀ e, scan source = .error e ↔
      ∃ fs c rest, Splits source.toList fs (c :: rest) ∧ Stuck (c :: rest) ∧
        e = ⟨if c = '"' then .unterminated else .unexpected c,
          (Place.start.after fs).afterInner c⟩) ∧
    ∀ fs rest, Splits source.toList fs rest →
      source.toList = fs.flatMap Front.text ++ rest ∧
      (tokensOf .start fs).map (fun t => (Piece.token t.kind, t.text)) =
        (fs.filter (·.piece.isToken)).map (fun f => (f.piece, String.ofList f.text)) ∧
      ∀ t ∈ tokensOf .start fs, t.Faithful := by
  refine ⟨fun s => scan_eq_ok_iff, fun s _ => rfl, fun e => scan_eq_error_iff, ?_⟩
  intro fs rest h
  exact ⟨h.text, tokensOf_texts _ _, h.faithful _⟩

end ExprMachine
