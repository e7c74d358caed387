import Mathlib.Data.List.DropRight
import ExprMachine.Proofs.Json.Numerals
import ExprMachine.Settings

/-! What the texts of variables stand for. They are cut at both ends, and what is left of one is
a machine word in decimal or a word for a flag. -/

namespace ExprMachine

/-- `core` is a text without the blanks at its ends. -/
structure Trimmed (cs core : List Char) : Prop where
  around : ∃ before after, cs = before ++ core ++ after ∧
    (∀ c ∈ before, isBlank c = true) ∧ ∀ c ∈ after, isBlank c = true
  head : ∀ c ∈ core.head?, isBlank c = false
  last : ∀ c ∈ core.getLast?, isBlank c = false

theorem dropBlanks_of_head {cs : List Char} (h : ∀ c ∈ cs.head?, isBlank c = false) :
    dropBlanks cs = cs := by
  cases cs with
  | nil => rfl
  | cons c cs =>
    have hc : isBlank c = false := h c rfl
    exact List.dropWhile_cons_of_neg (by simp [hc])

theorem head?_dropBlanks (cs : List Char) : ∀ c ∈ (dropBlanks cs).head?, isBlank c = false := by
  intro c hc
  have hnot := List.head?_dropWhile_not isBlank cs
  rw [← dropBlanks, Option.mem_def.mp hc] at hnot
  simpa using hnot

theorem Trimmed.trimBlanks {cs core : List Char} (h : Trimmed cs core) :
    trimBlanks cs = core := by
  obtain ⟨⟨before, after, rfl, hbefore, hafter⟩, hhead, hlast⟩ := h
  have hfront : dropBlanks (before ++ core ++ after) = dropBlanks (core ++ after) := by
    rw [dropBlanks, List.append_assoc, List.dropWhile_append_of_pos hbefore, ← dropBlanks]
  rw [ExprMachine.trimBlanks, hfront]
  by_cases hnil : core = []
  · subst hnil
    have hall : dropBlanks ([] ++ after) = [] := List.dropWhile_eq_nil_iff.mpr hafter
    rw [hall]
    rfl
  · have hkeep : dropBlanks (core ++ after) = core ++ after := by
      refine dropBlanks_of_head fun c hc => hhead c ?_
      rwa [List.head?_append_of_ne_nil _ hnil] at hc
    have hend : dropBlanks (after.reverse ++ core.reverse) = dropBlanks core.reverse :=
      List.dropWhile_append_of_pos fun c hc => hafter c (List.mem_reverse.mp hc)
    rw [hkeep, List.reverse_append, hend, dropBlanks_of_head (by simpa using hlast),
      List.reverse_reverse]

theorem trimmed_trimBlanks (cs : List Char) : Trimmed cs (trimBlanks cs) := by
  have hprefix : trimBlanks cs <+: dropBlanks cs := List.rdropWhile_prefix isBlank _
  refine ⟨⟨cs.takeWhile isBlank, (dropBlanks cs).rtakeWhile isBlank, ?_, ?_, ?_⟩, ?_, ?_⟩
  · have hback : trimBlanks cs ++ (dropBlanks cs).rtakeWhile isBlank = dropBlanks cs :=
      List.rdropWhile_append_rtakeWhile
    rw [List.append_assoc, hback, dropBlanks, List.takeWhile_append_dropWhile]
  · exact fun c hc => List.mem_takeWhile_imp hc
  · exact fun c hc => List.mem_rtakeWhile_imp hc
  · intro c hc
    obtain ⟨rest, hrest⟩ := hprefix
    refine head?_dropBlanks cs c ?_
    rw [← hrest, List.head?_append, Option.mem_def.mp hc]
    rfl
  · intro c hc
    rw [trimBlanks, List.getLast?_reverse] at hc
    exact head?_dropBlanks _ c hc

namespace Settings

/-- Digits after a plus sign or none, that stand for a machine word. -/
def WordText (cs : List Char) (n : Nat) : Prop :=
  ∃ digits, (cs = digits ∨ cs = '+' :: digits) ∧ digits ≠ [] ∧ AllDigits digits ∧
    Nat.ofDigitChars 10 digits 0 = n ∧ n < Word.size

theorem word?_iff {cs : List Char} {n : Nat} : word? cs = some n ↔ WordText cs n := by
  have hread (digits : List Char) :
      (if digits.isEmpty ∨ !digits.all Char.isDigit then none
        else if digitsValue digits < Word.size then some (digitsValue digits) else none) = some n ↔
      digits ≠ [] ∧ AllDigits digits ∧ Nat.ofDigitChars 10 digits 0 = n ∧ n < Word.size := by
    rw [digitsValue_eq_ofDigitChars, AllDigits, ← List.all_eq_true, ← List.isEmpty_eq_false_iff]
    split
    · next h =>
      refine iff_of_false nofun fun hdigits => ?_
      simp [hdigits.1, hdigits.2.1] at h
    · next h =>
      simp only [Bool.not_eq_true', not_or, Bool.not_eq_true, Bool.not_eq_false] at h
      split
      · next hlt =>
        refine ⟨?_, fun hdigits => congrArg some hdigits.2.2.1⟩
        rintro ⟨⟩
        exact ⟨h.1, h.2, rfl, hlt⟩
      · next hlt =>
        refine iff_of_false nofun ?_
        rintro ⟨-, -, rfl, hword⟩
        exact hlt hword
  unfold word?
  dsimp only
  rw [hread]
  split
  · next rest =>
    constructor
    · exact fun h => ⟨rest, .inr rfl, h⟩
    · rintro ⟨digits, rfl | heq, hrest⟩
      · exact absurd (hrest.2.1 '+' List.mem_cons_self) (by decide)
      · rwa [(List.cons.inj heq).2]
  · next hplus =>
    constructor
    · exact fun h => ⟨cs, .inl rfl, h⟩
    · rintro ⟨digits, rfl | rfl, hrest⟩
      · exact hrest
      · exact absurd rfl (hplus digits)

theorem wordText_digits {digits : List Char} (h : AllDigits digits) (hne : digits ≠ []) {n : Nat} :
    WordText digits n ↔ Nat.ofDigitChars 10 digits 0 = n ∧ n < Word.size := by
  constructor
  · rintro ⟨_, rfl | rfl, -, -, hn⟩
    · exact hn
    · exact absurd (h '+' List.mem_cons_self) (by decide)
  · exact fun hn => ⟨digits, .inl rfl, hne, h, hn⟩

theorem wordText_plus {digits : List Char} (h : AllDigits digits) (hne : digits ≠ []) {n : Nat} :
    WordText ('+' :: digits) n ↔ Nat.ofDigitChars 10 digits 0 = n ∧ n < Word.size := by
  constructor
  · rintro ⟨_, rfl | heq, -, hall, hn⟩
    · exact absurd (hall '+' List.mem_cons_self) (by decide)
    · rwa [(List.cons.inj heq).2]
  · exact fun hn => ⟨digits, .inr rfl, hne, h, hn⟩

/-- The words for a flag. -/
def flagTexts : Bool → List String
  | true => ["1", "true", "yes", "on"]
  | false => ["0", "false", "no", "off", ""]

def FlagText (cs : List Char) (b : Bool) : Prop := String.ofList cs ∈ flagTexts b

theorem flag?_iff {cs : List Char} {b : Bool} : flag? cs = some b ↔ FlagText cs b := by
  have hapart : ∀ text ∈ flagTexts false, text ∉ flagTexts true := by decide
  have hyes : ["1", "true", "yes", "on"].contains (String.ofList cs) = true ↔ FlagText cs true :=
    List.contains_iff_mem
  have hno : ["0", "false", "no", "off", ""].contains (String.ofList cs) = true ↔
      FlagText cs false := List.contains_iff_mem
  unfold flag?
  dsimp only
  split
  · next h =>
    cases b with
    | true => exact iff_of_true rfl (hyes.mp h)
    | false => exact iff_of_false nofun fun hf => hapart _ hf (hyes.mp h)
  · next h =>
    split
    · next hf =>
      cases b with
      | true => exact iff_of_false nofun fun ht => h (hyes.mpr ht)
      | false => exact iff_of_true rfl (hno.mp hf)
    · next hf =>
      cases b with
      | true => exact iff_of_false nofun fun ht => h (hyes.mpr ht)
      | false => exact iff_of_false nofun fun hn => hf (hno.mpr hn)

/-- What a text stands for when the blanks around it are cut off. -/
def Trims {α : Type} (reads : List Char → α → Prop) (text : String) (a : α) : Prop :=
  ∃ core, Trimmed text.toList core ∧ reads core a

theorem trims_iff {α : Type} {read : List Char → Option α} {reads : List Char → α → Prop}
    (h : ∀ {cs a}, read cs = some a ↔ reads cs a) {text : String} {a : α} :
    read (trimBlanks text.toList) = some a ↔ Trims reads text a := by
  rw [h]
  constructor
  · exact fun hr => ⟨_, trimmed_trimBlanks _, hr⟩
  · rintro ⟨core, hcore, hr⟩
    rwa [hcore.trimBlanks]

end Settings

end ExprMachine
