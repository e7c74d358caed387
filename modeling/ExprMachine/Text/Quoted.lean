import ExprMachine.Text.CharSet

/-! Quoted text as it stands in messages: between double quotes, with the characters
that would not show as themselves escaped. -/

namespace ExprMachine

namespace Quoted

/-- A quote and a backslash get a backslash, an apostrophe does not. Characters without a
shape of their own become their code point in lower-case hexadecimal. -/
def escape (c : Char) : List Char :=
  if c = '\x00' then ['\\', '0']
  else if c = '\t' then ['\\', 't']
  else if c = '\r' then ['\\', 'r']
  else if c = '\n' then ['\\', 'n']
  else if c = '"' then ['\\', '"']
  else if c = '\\' then ['\\', '\\']
  else if isPrintable c then [c]
  else ['\\', 'u', '\x7b'] ++ Nat.toDigits 16 c.toNat ++ ['\x7d']

def quote (s : String) : String :=
  String.ofList ('"' :: s.toList.flatMap escape ++ ['"'])

end Quoted

end ExprMachine
