/-!
# Quoted text

Text between quotation marks with its special characters escaped, as in inspection texts and in
the fields of log lines. A mark is escaped only inside marks of its own kind. Characters outside
ASCII stand for themselves.
-/

namespace TopicIndex.Text

namespace Quoted

/-- Hexadecimal digits in lower case, without leading zeros. -/
def hex (n : Nat) : List Char := Nat.toDigits 16 n

def escape (mark c : Char) : List Char :=
  if c = mark ∨ c = '\\' then ['\\', c]
  else if c = '\t' then ['\\', 't']
  else if c = '\n' then ['\\', 'n']
  else if c = '\r' then ['\\', 'r']
  else if c.toNat = 0 then ['\\', '0']
  else if c.toNat < 0x20 ∨ c.toNat = 0x7f then ['\\', 'u', '{'] ++ hex c.toNat ++ ['}']
  else [c]

def wrap (mark : Char) (text : List Char) : List Char :=
  mark :: text.flatMap (escape mark) ++ [mark]

end Quoted

/-- The text in double quotes. -/
def quote (text : String) : String := String.ofList (Quoted.wrap '"' text.toList)

/-- The character in single quotes. -/
def quoteChar (c : Char) : String := String.ofList (Quoted.wrap '\'' [c])

/-- The items between commas. -/
def listed (items : List String) : String := ", ".intercalate items

end TopicIndex.Text
