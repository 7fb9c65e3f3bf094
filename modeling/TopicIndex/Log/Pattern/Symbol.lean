import TopicIndex.Log.Pattern.Mode

/-!
# Symbols of a pattern

A symbol is a character that stands for itself, or something smaller than a set that stands for
characters or for a place between them. There are no tables of cases and classes beyond ASCII, so
neither can be asked for where characters are matched. Where bytes are matched, these have to be
ASCII, so nothing may stand for all the others.
-/

namespace TopicIndex.Log.Pattern

inductive Symbol where
  | literal (c : Char)
  /-- A character by the number of its byte. -/
  | byte (c : Char)
  /-- Any character. -/
  | dot
  /-- Digits, space or letters, or all but these. -/
  | kind (complement : Bool)
  /-- The beginning or the end of a line or of the text. -/
  | edge
  /-- The beginning or the end of a word, or neither. -/
  | wordEdge
deriving DecidableEq

namespace Symbol

def char? : Symbol → Option Char
  | literal c | byte c => some c
  | _ => none

/-- May stand on its own. -/
def isAllowed (m : Mode) : Symbol → Bool
  | literal _ => !m.unicode || !m.caseless
  | byte c => if m.unicode then !m.caseless else c.toNat < 0x80
  | dot => m.unicode
  | kind complement => !m.unicode && !complement
  | edge => true
  | wordEdge => !m.unicode

/-- May stand in a set. -/
def isMember (m : Mode) : Symbol → Bool
  | literal c | byte c => if m.unicode then !m.caseless else c.toNat < 0x80
  | kind complement => !m.unicode && !complement
  | _ => false

def isHex (c : Char) : Bool := c.isDigit || ('a' ≤ c.toLower && c.toLower ≤ 'f')

def hexDigit (c : Char) : Nat := if c.isDigit then c.toNat - 48 else c.toLower.toNat - 87

/-- Reads hexadecimal digits, behind those of `n`. -/
def readHex (m : Mode) (n : Nat) : Nat → List Char → Option (Nat × List Char)
  | 0, text => some (n, text)
  | count + 1, text =>
    match m.skip text with
    | [] => none
    | c :: rest => if isHex c then readHex m (16 * n + hexDigit c) count rest else none

/-- Reads the number of a character in the given count of digits. -/
def readCode (m : Mode) (count : Nat) (text : List Char) : Option (Char × List Char) :=
  (readHex m 0 count text).bind fun (code, rest) =>
    if code.isValidChar then some (Char.ofNat code, rest) else none

/-- What stands behind a backslash. Of the letters and digits only some have a meaning; other marks
of ASCII stand for themselves. -/
def readEscape (m : Mode) : List Char → Option (Symbol × List Char)
  | [] => none
  | c :: rest =>
    match c with
    | 'x' => (readCode m 2 rest).map fun (c, rest) => (byte c, rest)
    | 'u' => (readCode m 4 rest).map fun (c, rest) => (literal c, rest)
    | 'U' => (readCode m 8 rest).map fun (c, rest) => (literal c, rest)
    | 'a' => some (literal '\x07', rest)
    | 't' => some (literal '\t', rest)
    | 'n' => some (literal '\n', rest)
    | 'v' => some (literal '\x0b', rest)
    | 'f' => some (literal '\x0c', rest)
    | 'r' => some (literal '\r', rest)
    | 'd' | 's' | 'w' => some (kind false, rest)
    | 'D' | 'S' | 'W' => some (kind true, rest)
    | 'A' | 'z' => some (edge, rest)
    | 'b' | 'B' | '<' | '>' => some (wordEdge, rest)
    | _ => if c.toNat < 0x80 ∧ !c.isAlphanum then some (literal c, rest) else none

end Symbol

end TopicIndex.Log.Pattern
