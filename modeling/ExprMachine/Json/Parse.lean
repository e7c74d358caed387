import ExprMachine.Json.Document

/-! Reading JSON. Values may nest to any depth and numbers may have any size. -/

namespace ExprMachine

namespace Json

def isSpace (c : Char) : Bool :=
  c == ' ' || c == '\n' || c == '\t' || c == '\r'

def skipSpace (cs : List Char) : List Char :=
  cs.dropWhile isSpace

def hexDigit? (c : Char) : Option Nat :=
  if c.isDigit then some (c.toNat - 48)
  else if 'a' ≤ c ∧ c ≤ 'f' then some (c.toNat - 87)
  else if 'A' ≤ c ∧ c ≤ 'F' then some (c.toNat - 55)
  else none

def hexUnit? (a b c d : Char) : Option Nat := do
  return ((← hexDigit? a) * 16 + (← hexDigit? b)) * 256 + (← hexDigit? c) * 16 + (← hexDigit? d)

def shortEscape? : Char → Option Char
  | '"' => some '"'
  | '\\' => some '\\'
  | '/' => some '/'
  | 'b' => some '\x08'
  | 'f' => some '\x0c'
  | 'n' => some '\n'
  | 'r' => some '\r'
  | 't' => some '\t'
  | _ => none

/-- The code units up to the closing quote, after those in `found`, which are in reverse
order. A character is one unit, and so is each half of a surrogate pair. -/
def stringUnits? (found : List Nat) : List Char → Option (List Nat × List Char)
  | '"' :: rest => some (found.reverse, rest)
  | '\\' :: 'u' :: a :: b :: c :: d :: rest =>
    match hexUnit? a b c d with
    | some unit => stringUnits? (unit :: found) rest
    | none => none
  | '\\' :: c :: rest =>
    match shortEscape? c with
    | some e => stringUnits? (e.toNat :: found) rest
    | none => none
  | c :: rest => if c.toNat < 32 then none else stringUnits? (c.toNat :: found) rest
  | [] => none

/-- Joins the halves of surrogate pairs. A half that stands alone is no character. -/
def joinUnits? (found : List Char) : List Nat → Option (List Char)
  | [] => some found.reverse
  | u :: rest =>
    if u < 0xD800 ∨ 0xDFFF < u then joinUnits? (Char.ofNat u :: found) rest
    else
      match rest with
      | v :: rest =>
        if u ≤ 0xDBFF ∧ 0xDC00 ≤ v ∧ v ≤ 0xDFFF then
          joinUnits? (Char.ofNat (0x10000 + (u - 0xD800) * 0x400 + (v - 0xDC00)) :: found) rest
        else none
      | [] => none

def stringRest? (cs : List Char) : Option (Option String × List Char) :=
  match stringUnits? [] cs with
  | some (units, rest) => some ((joinUnits? [] units).map String.ofList, rest)
  | none => none

def digits (cs : List Char) : List Char × List Char :=
  (cs.takeWhile Char.isDigit, cs.dropWhile Char.isDigit)

def someDigits? (cs : List Char) : Option (List Char × List Char) :=
  match digits cs with
  | ([], _) => none
  | found => some found

/-- A zero before the point stands alone. -/
def whole? : List Char → Option (List Char × List Char)
  | '0' :: rest => some (['0'], rest)
  | cs => someDigits? cs

def fraction? : List Char → Option (List Char × List Char)
  | '.' :: rest => (someDigits? rest).map fun (found, rest) => ('.' :: found, rest)
  | cs => some ([], cs)

def exponentSign : List Char → List Char × List Char
  | '+' :: rest => (['+'], rest)
  | '-' :: rest => (['-'], rest)
  | cs => ([], cs)

def exponent? : List Char → Option (List Char × List Char)
  | [] => some ([], [])
  | c :: rest =>
    if c = 'e' ∨ c = 'E' then
      let (sign, rest) := exponentSign rest
      (someDigits? rest).map fun (found, rest) => (c :: sign ++ found, rest)
    else some ([], c :: rest)

def minus : List Char → List Char × List Char
  | '-' :: rest => (['-'], rest)
  | cs => ([], cs)

def number? (cs : List Char) : Option (Json × List Char) := do
  let (sign, rest) := minus cs
  let (whole, rest) ← whole? rest
  let (fraction, rest) ← fraction? rest
  let (exponent, rest) ← exponent? rest
  return (.number (String.ofList (sign ++ whole ++ fraction ++ exponent)), rest)

def scalar? : List Char → Option (Json × List Char)
  | 'n' :: 'u' :: 'l' :: 'l' :: rest => some (.null, rest)
  | 't' :: 'r' :: 'u' :: 'e' :: rest => some (.boolean true, rest)
  | 'f' :: 'a' :: 'l' :: 's' :: 'e' :: rest => some (.boolean false, rest)
  | '"' :: rest => (stringRest? rest).map fun (text, rest) => (.string text, rest)
  | cs => number? cs

mutual

/-- Reads a value. The number bounds how many values and brackets can follow. -/
def value? : Nat → List Char → Option (Json × List Char)
  | 0, _ => none
  | bound + 1, cs =>
    match skipSpace cs with
    | '[' :: rest =>
      match skipSpace rest with
      | ']' :: rest => some (.array [], rest)
      | rest => items? bound [] rest
    | '\x7b' :: rest =>
      match skipSpace rest with
      | '\x7d' :: rest => some (.object [], rest)
      | rest => members? bound [] rest
    | cs => scalar? cs

/-- Reads the items of an array after those in `found`, which are in reverse order. -/
def items? : Nat → List Json → List Char → Option (Json × List Char)
  | 0, _, _ => none
  | bound + 1, found, cs =>
    match value? bound cs with
    | none => none
    | some (item, rest) =>
      match skipSpace rest with
      | ',' :: rest => items? bound (item :: found) rest
      | ']' :: rest => some (.array (item :: found).reverse, rest)
      | _ => none

/-- Reads the members of an object after those in `found`, which are in reverse order. -/
def members? : Nat → List (Option String × Json) → List Char → Option (Json × List Char)
  | 0, _, _ => none
  | bound + 1, found, cs =>
    match skipSpace cs with
    | '"' :: rest =>
      match stringRest? rest with
      | none => none
      | some (name, rest) =>
        match skipSpace rest with
        | ':' :: rest =>
          match value? bound rest with
          | none => none
          | some (value, rest) =>
            match skipSpace rest with
            | ',' :: rest => members? bound ((name, value) :: found) rest
            | '\x7d' :: rest => some (.object ((name, value) :: found).reverse, rest)
            | _ => none
        | _ => none
    | _ => none

end

/-- Reads a document, which is one value with nothing but white space around it. -/
def parse? (text : String) : Option Json :=
  let cs := text.toList
  match value? (2 * cs.length + 2) cs with
  | some (json, rest) => if (skipSpace rest).isEmpty then some json else none
  | none => none

end Json

end ExprMachine
