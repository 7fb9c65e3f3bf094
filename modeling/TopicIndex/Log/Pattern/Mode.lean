import TopicIndex.Text.Classes

/-!
# Modes of a pattern

How a pattern is read and what it may hold depends on flags, which can change within it.
-/

namespace TopicIndex.Log.Pattern

structure Mode where
  /-- Letters stand for both of their cases. -/
  caseless : Bool
  /-- Characters are matched, and not bytes. -/
  unicode : Bool
  /-- Space and comments are passed over. -/
  spaced : Bool
deriving DecidableEq

namespace Mode

def initial : Mode where
  caseless := false
  unicode := true
  spaced := false

/-- Takes space and comments off the front, within a comment or not. A comment goes from a number
sign to the end of its line. -/
def skipSpace : Bool → List Char → List Char
  | _, [] => []
  | true, c :: rest => skipSpace (c != '\n') rest
  | false, c :: rest =>
    if Text.isSpace c then skipSpace false rest
    else if c = '#' then skipSpace true rest
    else c :: rest

/-- What is read next. -/
def skip (m : Mode) (text : List Char) : List Char := if m.spaced then skipSpace false text else text

/-- The character that decides whether a hyphen in front of the text makes a range. A number sign is
passed over here, but not its comment. -/
def peek? (m : Mode) (text : List Char) : Option Char :=
  if m.spaced then
    let rest := text.dropWhile Text.isSpace
    let rest := if rest.head? = some '#' then rest.tail.dropWhile Text.isSpace else rest
    rest.head?.or text.head?
  else text.head?

def switch (m : Mode) (on : Bool) : Char → Mode
  | 'i' => { m with caseless := on }
  | 'u' => { m with unicode := on }
  | 'x' => { m with spaced := on }
  | _ => m

/-- The flags in front of a minus sign are switched on, those behind it off. -/
def change (m : Mode) (flags : List Char) : Mode :=
  let (on, off) := flags.span (· != '-')
  off.foldl (·.switch false) (on.foldl (·.switch true) m)

end Mode

end TopicIndex.Log.Pattern
