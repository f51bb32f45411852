import ShiftReduce.Text.Extending
import ShiftReduce.Text.Printable

/-!
# Quoted names

A name is quoted with backslashes before quotes and backslashes, short forms for NUL, tab, line
feed and carriage return, and the code point in braces for every other character that does not
print or that extends the one before it.
-/

namespace ShiftReduce.Text

/-- The hexadecimal digits of a number, in lower case. -/
def hexDigits (n : Nat) : String := String.ofList (Nat.toDigits 16 n)

def quotedChar (c : Char) : String :=
  if c = '"' || c = '\\' then "\\" ++ String.singleton c
  else if c = '\x00' then "\\0"
  else if c = '\t' then "\\t"
  else if c = '\n' then "\\n"
  else if c = '\r' then "\\r"
  else if isPrintable c && !isExtending c then String.singleton c
  else "\\u\x7b" ++ hexDigits c.toNat ++ "\x7d"

def quoted (s : String) : String := "\"" ++ String.join (s.toList.map quotedChar) ++ "\""

/-- A list of quoted names in brackets. -/
def quotedList (names : List String) : String :=
  "[" ++ String.intercalate ", " (names.map quoted) ++ "]"

end ShiftReduce.Text
