import ExprMachine.Token.Front

/-! Scanning: the tokens of a text in order, or the first place where the text is not
a sequence of pieces. -/

namespace ExprMachine

structure LexicalError where
  fault : LexicalFault
  place : Place
deriving DecidableEq, Repr

structure Scan where
  tokens : List Token
  finish : Place
deriving DecidableEq

namespace LexicalFault

def message : LexicalFault → String
  | unexpected c => s!"Unexpected character '{c}'."
  | unterminated => "Unterminated string."

end LexicalFault

namespace Place

def start : Place := ⟨1, -1⟩

/-- A newline between tokens puts the next character in column 1. -/
def afterBlank (p : Place) (c : Char) : Place :=
  if c = '\n' then ⟨p.line + 1, 0⟩ else ⟨p.line, p.column + 1⟩

/-- A newline inside a string counts as the first column of the line it starts. -/
def afterInner (p : Place) (c : Char) : Place :=
  if c = '\n' then ⟨p.line + 1, 1⟩ else ⟨p.line, p.column + 1⟩

def afterFront (p : Place) (f : Front) : Place :=
  match f.piece with
  | .blank => f.text.foldl afterBlank p
  | _ => f.text.foldl afterInner p

end Place

def Front.token? (f : Front) (place : Place) : Option Token :=
  match f.piece with
  | .token kind => some ⟨kind, String.ofList f.text, place⟩
  | _ => none

/-- Scans the text that follows the place `p`, after the tokens in `found`. -/
def scanFrom (p : Place) (found : Array Token) (cs : List Char) : Except LexicalError Scan :=
  match cs with
  | [] => .ok ⟨found.toList, p⟩
  | c :: rest =>
    match h : front c rest with
    | .error fault => .error ⟨fault, p.afterInner c⟩
    | .ok f =>
      have := front_rest_length_le h
      let next := p.afterFront f
      match f.token? next with
      | some token => scanFrom next (found.push token) f.rest
      | none => scanFrom next found f.rest
termination_by cs.length

def scan (source : String) : Except LexicalError Scan :=
  scanFrom .start #[] source.toList

end ExprMachine
