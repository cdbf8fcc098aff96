import ShaderSource.Text.Hidden

/-!
# Quoted text

Messages quote pieces of source text. A quoted piece stands between double quotes; a quote or a
backslash in it takes a backslash, the common controls have their short names, and a character
that a reader would not see is given by its code point.
-/

namespace ShaderSource.Text

/-- The code point `n` as an escape, in lower case hexadecimal digits without leading zeros. -/
def codePointEscape (n : Nat) : List Char :=
  '\\' :: 'u' :: '\x7b' :: (Nat.toDigits 16 n ++ ['\x7d'])

/-- One character as it is written between double quotes. -/
def quotedChar (c : Char) : List Char :=
  if c = '\x00' then ['\\', '0']
  else if c = '\t' then ['\\', 't']
  else if c = '\r' then ['\\', 'r']
  else if c = '\n' then ['\\', 'n']
  else if c = '\\' then ['\\', '\\']
  else if c = '"' then ['\\', '"']
  else if isHidden c then codePointEscape c.toNat
  else [c]

/-- The text between double quotes. -/
def quoted (s : String) : String :=
  String.ofList ('"' :: (s.toList.flatMap quotedChar ++ ['"']))

end ShaderSource.Text
