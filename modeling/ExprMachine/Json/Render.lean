import ExprMachine.Json.Document

/-! Writing JSON, on one line or with a line for each item. -/

namespace ExprMachine

/-- What stands before an item at a level of nesting, and between a name and its value. -/
structure Spacing where
  item : Nat → List Char
  colon : List Char

namespace Spacing

def compact : Spacing where
  item _ := []
  colon := [':']

def indented : Spacing where
  item level := '\n' :: List.replicate (2 * level) ' '
  colon := [':', ' ']

end Spacing

namespace Json

/-- Only quotes, backslashes and control characters below the blank are escaped. -/
def escape (c : Char) : List Char :=
  if c = '"' then ['\\', '"']
  else if c = '\\' then ['\\', '\\']
  else if c = '\n' then ['\\', 'n']
  else if c = '\r' then ['\\', 'r']
  else if c = '\t' then ['\\', 't']
  else if c = '\x08' then ['\\', 'b']
  else if c = '\x0c' then ['\\', 'f']
  else if c.toNat < 32 then
    ['\\', 'u', '0', '0', Nat.digitChar (c.toNat / 16), Nat.digitChar (c.toNat % 16)]
  else [c]

def renderString : Option String → List Char
  | some s => '"' :: s.toList.flatMap escape ++ ['"']
  | none => ['"', '\\', 'u', 'd', '8', '0', '0', '"']

mutual

/-- Writes a value at a level of nesting, before the text that follows it. -/
def render (s : Spacing) (level : Nat) (json : Json) (rest : List Char) : List Char :=
  match json with
  | null => ['n', 'u', 'l', 'l'] ++ rest
  | boolean true => ['t', 'r', 'u', 'e'] ++ rest
  | boolean false => ['f', 'a', 'l', 's', 'e'] ++ rest
  | number text => text.toList ++ rest
  | string text => renderString text ++ rest
  | array [] => '[' :: ']' :: rest
  | array (item :: items) =>
    '[' :: s.item (level + 1) ++ render s (level + 1) item
      (renderItems s level items (s.item level ++ ']' :: rest))
  | object [] => '\x7b' :: '\x7d' :: rest
  | object (member :: members) =>
    '\x7b' :: s.item (level + 1) ++ renderMember s level member
      (renderMembers s level members (s.item level ++ '\x7d' :: rest))

def renderItems (s : Spacing) (level : Nat) (items : List Json) (rest : List Char) : List Char :=
  match items with
  | [] => rest
  | item :: items =>
    ',' :: s.item (level + 1) ++ render s (level + 1) item (renderItems s level items rest)

def renderMember (s : Spacing) (level : Nat) (member : Option String × Json) (rest : List Char) :
    List Char :=
  match member with
  | (name, value) => renderString name ++ s.colon ++ render s (level + 1) value rest

def renderMembers (s : Spacing) (level : Nat) (members : List (Option String × Json))
    (rest : List Char) : List Char :=
  match members with
  | [] => rest
  | member :: members =>
    ',' :: s.item (level + 1) ++ renderMember s level member (renderMembers s level members rest)

end

def write (s : Spacing) (json : Json) : String :=
  String.ofList (render s 0 json [])

end Json

end ExprMachine
