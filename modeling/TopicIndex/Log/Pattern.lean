import TopicIndex.Log.Pattern.CharSet
import TopicIndex.Text.Classes

/-!
# Patterns

A regular expression as it may stand behind the name of a field. Only its form matters here: no
record is ever compared with one. Groups have to be closed and have different names, a repetition
needs something to repeat, and nothing may be too deep: a group or a repetition is one level deeper
than its content, and so are two or more parts than the deepest of them, in a row or as
alternatives. A count of repetitions is not read.
-/

namespace TopicIndex.Log.Pattern

/-- A part in a row. -/
structure Part where
  depth : Nat
  isRepeatable : Bool

/-- The alternatives of a group of which the last is being read. -/
structure Alternatives where
  /-- The depths of those before. -/
  finished : List Nat
  /-- The parts of the last one, from its end. -/
  parts : List Part

namespace Alternatives

def empty : Alternatives where
  finished := []
  parts := []

def push (a : Alternatives) (p : Part) : Alternatives := { a with parts := p :: a.parts }

def next (a : Alternatives) : Alternatives where
  finished := joinedDepth (a.parts.map (·.depth)) :: a.finished
  parts := []

def depth (a : Alternatives) : Nat := joinedDepth a.next.finished

def repeat? (a : Alternatives) : Option Alternatives :=
  match a.parts with
  | p :: parts =>
    if p.isRepeatable then some { a with parts := ⟨p.depth + 1, true⟩ :: parts } else none
  | [] => none

end Alternatives

/-- What has been read of a pattern. -/
structure State where
  mode : Mode
  /-- The group that is open. -/
  inner : Alternatives
  /-- The groups around it, with the modes to return to. -/
  outer : List (Mode × Alternatives)
  names : List (List Char)

namespace State

def initial : State where
  mode := .initial
  inner := .empty
  outer := []
  names := []

def push (s : State) (depth : Nat) (isRepeatable : Bool) : State :=
  { s with inner := s.inner.push ⟨depth, isRepeatable⟩ }

def pushSymbol? (s : State) (symbol : Symbol) : Option State :=
  if symbol.isAllowed s.mode then some (s.push 0 true) else none

def openGroup (s : State) (mode : Mode) : State :=
  { s with mode := mode, inner := .empty, outer := (s.mode, s.inner) :: s.outer }

def closeGroup? (s : State) : Option State :=
  match s.outer with
  | [] => none
  | (mode, around) :: outer =>
    some { s with mode := mode, inner := around.push ⟨s.inner.depth + 1, true⟩, outer := outer }

def addName? (s : State) (name : List Char) : Option State :=
  if s.names.contains name then none else some { s with names := name :: s.names }

end State

/-- Each flag at most once, and a minus sign before the last of them. -/
def areFlags (text : List Char) : Bool :=
  text.all ("imsUuRx-".toList.contains ·) && text.Nodup && text.getLast? != some '-'

def isName : List Char → Bool
  | [] => false
  | c :: rest =>
    (c == '_' || Text.isAlphabetic c) &&
      rest.all fun c => "_.[]".toList.contains c || Text.isAlphabetic c || Text.isNumeric c

/-- Opens a group with a name, behind its angle bracket. -/
def readName (s : State) (text : List Char) : Option (State × List Char) :=
  let name := text.takeWhile (· != '>')
  match text.dropWhile (· != '>') with
  | [] => none
  | _ :: rest =>
    if isName name then (s.addName? name).map fun s => (s.openGroup s.mode, rest) else none

/-- Opens a group or changes the mode, behind a parenthesis. -/
def readOpening (s : State) : List Char → Option (State × List Char)
  | '?' :: 'P' :: '<' :: rest => readName s rest
  | '?' :: '<' :: rest => readName s rest
  | '?' :: rest =>
    let isFlag := fun c => c != ':' && c != ')'
    let flags := rest.takeWhile isFlag
    if areFlags flags then
      match rest.dropWhile isFlag with
      | ':' :: rest => some (s.openGroup (s.mode.change flags), rest)
      | ')' :: rest =>
        if flags = [] then none
        else some ({ s.push 0 false with mode := s.mode.change flags }, rest)
      | _ => none
    else none
  | rest => some (s.openGroup s.mode, rest)

def step (s : State) (c : Char) (rest : List Char) : Option (State × List Char) :=
  match c with
  | '(' => readOpening s (s.mode.skip rest)
  | ')' => s.closeGroup?.map (·, rest)
  | '|' => some ({ s with inner := s.inner.next }, rest)
  | '?' | '*' | '+' =>
    s.inner.repeat?.map fun inner =>
      ({ s with inner := inner }, if rest.head? = some '?' then rest.tail else rest)
  | '{' => none
  | '[' => (CharSet.read s.mode rest).map fun (depth, rest) => (s.push depth true, rest)
  | '\\' =>
    (Symbol.readEscape s.mode rest).bind fun (symbol, rest) => (s.pushSymbol? symbol).map (·, rest)
  | '.' => (s.pushSymbol? .dot).map (·, rest)
  | '^' | '$' => (s.pushSymbol? .edge).map (·, rest)
  | _ => (s.pushSymbol? (.literal c)).map (·, rest)

/-- Reads a text to its end. Each step takes a character or more, so the length of the text is fuel
enough. -/
def readAll : Nat → State → List Char → Option State
  | 0, _, _ => none
  | fuel + 1, s, text =>
    match s.mode.skip text with
    | [] => some s
    | c :: rest => (step s c rest).bind fun (s, rest) => readAll fuel s rest

def maxDepth : Nat := 250

def isPattern (text : List Char) : Bool :=
  match readAll (text.length + 1) .initial text with
  | some s => s.outer.isEmpty && s.inner.depth ≤ maxDepth
  | none => false

end TopicIndex.Log.Pattern
