import ExprMachine.Proofs.Machine.Tracing

/-! What a reader takes from a listing. In front of an instruction stand its offset and its line,
or a bar where the line is that of the instruction above. -/

namespace ExprMachine

/-- The number that the digits at the front of a text stand for. -/
def frontNumber (cs : List Char) : Nat := Nat.ofDigitChars 10 (cs.takeWhile Char.isDigit) 0

/-- The line that stands after blanks, unless a bar does. -/
def readMark (cs : List Char) : Option Nat :=
  let mark := cs.dropWhile (· == ' ')
  if mark.head? = some '|' then none else some (frontNumber mark)

/-- The offset at the front of a listing, and the line if it is printed. -/
def readMargin (listing : String) : Nat × Option Nat :=
  (frontNumber listing.toList, readMark (listing.toList.dropWhile Char.isDigit))

/-- The line of each listing: the number printed on it, or the last number printed above. -/
def inferLines (above : Option Nat) : List String → List (Option Nat)
  | [] => []
  | listing :: listings =>
    let line := (readMargin listing).2.or above
    line :: inferLines line listings

/-- How the line is shown, or a bar for none. -/
def lineMark : Option Nat → String
  | none => "    | "
  | some line => " " ++ Padding.before ' ' 4 (toString line) ++ " "

def marginText (offset : Nat) (mark : Option Nat) : String :=
  Padding.before '0' 4 (toString offset) ++ lineMark mark

theorem before_toList (c : Char) (width n : Nat) : ∃ k,
    (Padding.before c width (toString n)).toList = List.replicate k c ++ Nat.toDigits 10 n := by
  refine ⟨width - (toString n).length, ?_⟩
  rw [Padding.before, Padding.fill, String.toList_append, String.toList_ofList,
    Nat.toString_eq_ofList_toDigits, String.toList_ofList]

theorem isDigit_toDigits (n : Nat) : ∀ d ∈ Nat.toDigits 10 n, d.isDigit = true := fun _ hd =>
  Nat.isDigit_of_mem_toDigits (by decide) (by decide) hd

theorem isDigit_padded (k n : Nat) :
    ∀ d ∈ List.replicate k '0' ++ Nat.toDigits 10 n, d.isDigit = true := by
  intro d hd
  rcases List.mem_append.mp hd with hd | hd
  · rw [List.eq_of_mem_replicate hd]
    rfl
  · exact isDigit_toDigits n d hd

/-- A number with zeros before it and a blank after it. -/
theorem frontNumber_padded (k n : Nat) (cs : List Char) :
    frontNumber (List.replicate k '0' ++ Nat.toDigits 10 n ++ ' ' :: cs) = n := by
  have hblank : ¬ ' '.isDigit = true := by decide
  rw [frontNumber, List.takeWhile_append_of_pos (isDigit_padded k n),
    List.takeWhile_cons_of_neg hblank, List.append_nil, Nat.ofDigitChars_append,
    Nat.ofDigitChars_replicate_zero, Nat.mul_zero, Nat.ofDigitChars_ten_toDigits]

theorem dropWhile_padded (k n : Nat) (cs : List Char) :
    (List.replicate k '0' ++ Nat.toDigits 10 n ++ ' ' :: cs).dropWhile Char.isDigit =
      ' ' :: cs := by
  have hblank : ¬ ' '.isDigit = true := by decide
  rw [List.dropWhile_append_of_pos (isDigit_padded k n), List.dropWhile_cons_of_neg hblank]

theorem readMark_lineMark (mark : Option Nat) (body : List Char) :
    readMark ((lineMark mark).toList ++ body) = mark := by
  cases mark with
  | none =>
    have hbar : (lineMark none).toList = [' ', ' ', ' ', ' ', '|', ' '] := by decide
    rw [hbar]
    rfl
  | some line =>
    obtain ⟨k, hk⟩ := before_toList ' ' 4 line
    obtain ⟨d, ds, hd⟩ := List.exists_cons_of_ne_nil (Nat.toDigits_ne_nil (n := line) (b := 10))
    have hdigit : d.isDigit = true := isDigit_toDigits line d (by simp [hd])
    have htext : (lineMark (some line)).toList ++ body =
        List.replicate (k + 1) ' ' ++ (Nat.toDigits 10 line ++ ' ' :: body) := by
      simp only [lineMark, String.toList_append, hk, List.replicate_succ]
      simp
    have hdrop : ((lineMark (some line)).toList ++ body).dropWhile (· == ' ') =
        Nat.toDigits 10 line ++ ' ' :: body := by
      have hblanks : ∀ c ∈ List.replicate (k + 1) ' ', (c == ' ') = true := fun c hc => by
        simp [List.eq_of_mem_replicate hc]
      have hne : ¬ (d == ' ') = true := by
        intro h
        rw [eq_of_beq h] at hdigit
        exact absurd hdigit (by decide)
      rw [htext, List.dropWhile_append_of_pos hblanks, hd, List.cons_append,
        List.dropWhile_cons_of_neg (p := (· == ' ')) hne]
    have hbar : (Nat.toDigits 10 line ++ ' ' :: body).head? ≠ some '|' := by
      rw [hd, List.cons_append, List.head?_cons]
      intro h
      rw [Option.some.inj h] at hdigit
      exact absurd hdigit (by decide)
    have hnumber := frontNumber_padded 0 line body
    rw [List.replicate_zero, List.nil_append] at hnumber
    rw [readMark, hdrop, if_neg hbar, hnumber]

theorem exists_lineMark (mark : Option Nat) : ∃ cs, (lineMark mark).toList = ' ' :: cs := by
  cases mark with
  | none => exact ⟨_, rfl⟩
  | some line =>
    simp only [lineMark, String.toList_append]
    exact ⟨_, rfl⟩

/-- A reader finds the offset and the mark again. -/
theorem readMargin_marginText (offset : Nat) (mark : Option Nat) (body : String) :
    readMargin (marginText offset mark ++ body) = (offset, mark) := by
  obtain ⟨k, hk⟩ := before_toList '0' 4 offset
  obtain ⟨cs, hcs⟩ := exists_lineMark mark
  have htext : (marginText offset mark ++ body).toList =
      List.replicate k '0' ++ Nat.toDigits 10 offset ++ ' ' :: (cs ++ body.toList) := by
    rw [marginText, String.toList_append, String.toList_append, hk, hcs, List.append_assoc,
      List.cons_append]
  rw [readMargin, htext, frontNumber_padded, dropWhile_padded, ← List.cons_append, ← hcs,
    readMark_lineMark]

namespace Chunk

variable {c : Chunk} {offset : Nat}

/-- The mark shows the line, unless the byte before has the same. -/
theorem margin_eq {line before : Nat} (h : c.lineAt offset = .ok line)
    (hb : c.lineAt (offset - 1) = .ok before) :
    c.margin offset =
      .ok (marginText offset (if 0 < offset ∧ line = before then none else some line)) := by
  simp only [margin, h, hb, bind, Except.bind]
  by_cases hsame : 0 < offset ∧ line = before
  · rw [if_pos (by simpa using hsame), if_pos hsame]
    rfl
  · rw [if_neg (by simpa using hsame), if_neg hsame, marginText, lineMark, ← String.append_assoc,
      ← String.append_assoc]
    rfl

end Chunk

end ExprMachine
