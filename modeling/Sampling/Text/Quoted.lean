/-
Quoted texts for logs and descriptions.

A text is put between double quotes. Quotes, backslashes and the common control characters are escaped by a letter, every other
character that cannot be shown on its own by its code in hexadecimal.
-/
import Sampling.Text.Unprintable

namespace Sampling.Quoted

/-- the escaped form of one character -/
def escape (c : Char) : List Char :=
  if c = '"' then ['\\', '"']
  else if c = '\\' then ['\\', '\\']
  else if c = '\n' then ['\\', 'n']
  else if c = '\r' then ['\\', 'r']
  else if c = '\t' then ['\\', 't']
  else if c.val = 0 then ['\\', '0']
  else if isUnprintable c then ['\\', 'u', '\x7b'] ++ Nat.toDigits 16 c.toNat ++ ['\x7d']
  else [c]

/-- a text between quotes, escaped -/
def quote (text : String) : String :=
  String.ofList ('"' :: text.toList.flatMap escape ++ ['"'])

end Sampling.Quoted
