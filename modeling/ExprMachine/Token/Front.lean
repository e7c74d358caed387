import ExprMachine.Decimal.Rounding
import ExprMachine.Text.CharSet
import ExprMachine.Token.Basic

/-! The longest piece at the front of a text: a blank, a comment or a token. -/

namespace ExprMachine

inductive LexicalFault where
  | unexpected (c : Char)
  | unterminated
deriving DecidableEq, Repr

inductive Piece where
  | blank
  | comment
  | token (kind : Kind)
deriving DecidableEq

structure Front where
  piece : Piece
  text : List Char
  rest : List Char

namespace Front

def isGap (c : Char) : Bool :=
  c == ' ' || c == '\r' || c == '\t' || c == '\n'

def startsWord (c : Char) : Bool :=
  isLetter c || c == '_'

def continuesWord (c : Char) : Bool :=
  startsWord c || c.isDigit

def sign? : Char → Option Kind
  | '(' => some .leftParen
  | ')' => some .rightParen
  | '\x7b' => some .leftBrace
  | '\x7d' => some .rightBrace
  | ',' => some .comma
  | '.' => some .dot
  | '-' => some .minus
  | '+' => some .plus
  | ';' => some .semicolon
  | '*' => some .star
  | _ => none

/-- The kinds of a sign alone and with an equals sign after it. -/
def comparison? : Char → Option (Kind × Kind)
  | '!' => some (.bang, .bangEqual)
  | '=' => some (.equal, .equalEqual)
  | '<' => some (.less, .lessEqual)
  | '>' => some (.greater, .greaterEqual)
  | _ => none

def slash (rest : List Char) : Front :=
  match rest with
  | '/' :: more =>
    ⟨.comment, '/' :: '/' :: more.takeWhile (· != '\n'), more.dropWhile (· != '\n')⟩
  | _ => ⟨.token .slash, ['/'], rest⟩

/-- The quotes do not belong to the value of a string, and nothing in it is an escape. -/
def quoted (rest : List Char) : Except LexicalFault Front :=
  match rest.dropWhile (· != '"') with
  | [] => .error .unterminated
  | _ :: after =>
    let inner := rest.takeWhile (· != '"')
    .ok ⟨.token (.string (String.ofList inner)), '"' :: inner ++ ['"'], after⟩

def comparison (c : Char) (alone joined : Kind) (rest : List Char) : Front :=
  match rest with
  | '=' :: after => ⟨.token joined, [c, '='], after⟩
  | _ => ⟨.token alone, [c], rest⟩

def numeral (whole fraction : List Char) : Piece :=
  let value : Decimal := ⟨digitsValue (whole ++ fraction), -(fraction.length : Int)⟩
  .token (.number (value.toFloat false))

/-- A point belongs to a number only if a digit follows it. -/
def number (cs : List Char) : Front :=
  let whole := cs.takeWhile Char.isDigit
  let rest := cs.dropWhile Char.isDigit
  match rest with
  | '.' :: d :: more =>
    if d.isDigit then
      let fraction := d :: more.takeWhile Char.isDigit
      ⟨numeral whole fraction, whole ++ '.' :: fraction, more.dropWhile Char.isDigit⟩
    else ⟨numeral whole [], whole, rest⟩
  | _ => ⟨numeral whole [], whole, rest⟩

def word (cs : List Char) : Front :=
  let text := cs.takeWhile continuesWord
  let name := String.ofList text
  let kind := match Keyword.ofName? name with
    | some keyword => .keyword keyword
    | none => .identifier name
  ⟨.token kind, text, cs.dropWhile continuesWord⟩

end Front

open Front in
/-- The piece that the text `c :: rest` starts with. -/
def front (c : Char) (rest : List Char) : Except LexicalFault Front :=
  if isGap c then .ok ⟨.blank, [c], rest⟩
  else if c = '/' then .ok (slash rest)
  else if c = '"' then quoted rest
  else if c.isDigit then .ok (number (c :: rest))
  else if startsWord c then .ok (word (c :: rest))
  else
    match sign? c, comparison? c with
    | some kind, _ => .ok ⟨.token kind, [c], rest⟩
    | none, some (alone, joined) => .ok (comparison c alone joined rest)
    | none, none => .error (.unexpected c)

namespace Front

theorem dropWhile_length_le (p : Char → Bool) (cs : List Char) :
    (cs.dropWhile p).length ≤ cs.length :=
  (List.dropWhile_suffix p).length_le

theorem slash_rest_length_le (rest : List Char) : (slash rest).rest.length ≤ rest.length := by
  unfold slash
  split
  · simp only [List.length_cons]
    exact Nat.le_succ_of_le (dropWhile_length_le _ _)
  · exact Nat.le_refl _

theorem quoted_rest_length_le {rest : List Char} {f : Front} (h : quoted rest = .ok f) :
    f.rest.length ≤ rest.length := by
  unfold quoted at h
  have hd := dropWhile_length_le (· != '"') rest
  split at h
  · cases h
  · next hr =>
    cases h
    rw [hr, List.length_cons] at hd
    exact Nat.le_of_succ_le hd

theorem comparison_rest_length_le (c : Char) (alone joined : Kind) (rest : List Char) :
    (comparison c alone joined rest).rest.length ≤ rest.length := by
  unfold comparison
  split
  · exact Nat.le_succ _
  · exact Nat.le_refl _

theorem number_rest_length_le {c : Char} (rest : List Char) (h : c.isDigit = true) :
    (number (c :: rest)).rest.length ≤ rest.length := by
  have hd : (c :: rest).dropWhile Char.isDigit = rest.dropWhile Char.isDigit := by
    rw [List.dropWhile_cons, if_pos h]
  have hr := dropWhile_length_le Char.isDigit rest
  unfold number
  rw [hd]
  dsimp only
  split
  · next d more hm =>
    rw [hm] at hr
    have hl := dropWhile_length_le Char.isDigit more
    simp only [List.length_cons] at hr
    split
    · exact Nat.le_trans hl (by omega)
    · rw [hm]
      simpa only [List.length_cons] using hr
  · exact hr

theorem word_rest_length_le {c : Char} (rest : List Char) (h : continuesWord c = true) :
    (word (c :: rest)).rest.length ≤ rest.length := by
  unfold word
  rw [List.dropWhile_cons, if_pos h]
  exact dropWhile_length_le _ _

end Front

open Front in
theorem front_rest_length_le {c : Char} {rest : List Char} {f : Front}
    (h : front c rest = .ok f) : f.rest.length ≤ rest.length := by
  unfold front at h
  split at h
  · cases h; exact Nat.le_refl _
  split at h
  · cases h; exact slash_rest_length_le rest
  split at h
  · exact quoted_rest_length_le h
  split at h
  · next hc => cases h; exact number_rest_length_le rest hc
  split at h
  · next hc => cases h; exact word_rest_length_le rest (by simp only [continuesWord, hc, Bool.true_or])
  split at h
  · cases h; exact Nat.le_refl _
  · cases h; exact comparison_rest_length_le c _ _ rest
  · cases h

end ExprMachine
