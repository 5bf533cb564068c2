import FiniteAutomata.Text.Unprintable

/-!
Quoted texts: a text between double quotes in which every character can be seen. Quotes and backslashes take
a backslash; the commonest controls have a letter, and other characters that cannot be seen are written by
their number.
-/

namespace FiniteAutomata.Text

/-- A number in lower-case hexadecimal digits. -/
def hex (n : Nat) : String := String.ofList (Nat.toDigits 16 n)

/-- How one character is written between quotes. -/
def escape (c : Char) : String :=
  if c = '\x00' then "\\0"
  else if c = '\t' then "\\t"
  else if c = '\n' then "\\n"
  else if c = '\r' then "\\r"
  else if c = '"' then "\\\""
  else if c = '\\' then "\\\\"
  else if isUnprintable c then "\\u\x7b" ++ hex c.toNat ++ "\x7d"
  else String.singleton c

def quoted (s : String) : String := "\"" ++ String.join (s.toList.map escape) ++ "\""

end FiniteAutomata.Text
