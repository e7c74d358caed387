import ExprMachine.Refusal

/-! Filling a text up to a width. A text that is longer is never cut. -/

namespace ExprMachine

namespace Padding

def fill (c : Char) (n : Nat) : String :=
  String.ofList (List.replicate n c)

/-- The largest width that may be asked for. -/
def widest : Nat := 65535

def checkWidth (width : Nat) : Except Refusal Unit :=
  if width ≤ widest then .ok () else .error .fillTooWide

def after (width : Nat) (s : String) : String :=
  s ++ fill ' ' (width - s.length)

def before (c : Char) (width : Nat) (s : String) : String :=
  fill c (width - s.length) ++ s

/-- The text in the middle. Of an odd number of characters the larger half comes after it. -/
def around (c : Char) (width : Nat) (s : String) : String :=
  let gap := width - s.length
  fill c (gap / 2) ++ s ++ fill c (gap - gap / 2)

end Padding

end ExprMachine
