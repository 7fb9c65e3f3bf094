import TopicIndex.Log.Pattern.Symbol

/-!
# Sets of characters

A set in brackets has members, ranges, named classes and sets of its own, and may be the
intersection or a difference of such. Reading it gives its depth: a set in brackets is one level
deeper than its content, and so are two or more members than the deepest of them, and an operation
than the deeper of its sides.
-/

namespace TopicIndex.Log.Pattern

/-- The depth of parts of the given depths together. A single part is not put together. -/
def joinedDepth : List Nat → Nat
  | [] => 0
  | [depth] => depth
  | depths => depths.foldl max 0 + 1

/-- A set that is being read. -/
structure CharSet where
  /-- The depth of what stands in front of the last operation. -/
  left : Option Nat
  /-- The depths of the members behind it. -/
  members : List Nat
  /-- Nothing but hyphens has been read, so that a hyphen is a member and so is a bracket that
  stands first. -/
  isFresh : Bool

namespace CharSet

def empty : CharSet where
  left := none
  members := []
  isFresh := true

def insert (s : CharSet) (depth : Nat) : CharSet :=
  { s with members := depth :: s.members, isFresh := false }

def contentDepth (s : CharSet) : Nat :=
  match s.left with
  | none => joinedDepth s.members
  | some left => max left (joinedDepth s.members) + 1

/-- Begins the other side of an operation. -/
def operate (s : CharSet) : CharSet where
  left := some s.contentDepth
  members := []
  isFresh := false

/-- Begins a set behind its bracket. -/
def open? (m : Mode) (text : List Char) : Option (CharSet × List Char) :=
  match m.skip text with
  | '^' :: rest => if m.unicode then some (empty, rest) else none
  | rest => some (empty, rest)

def classNames : List String :=
  ["alnum", "alpha", "ascii", "blank", "cntrl", "digit", "graph", "lower", "print", "punct",
    "space", "upper", "word", "xdigit"]

/-- Reads a named class behind its bracket: whether it is complemented, and the rest. -/
def readClass? : List Char → Option (Bool × List Char)
  | ':' :: text =>
    let complement := text.head? == some '^'
    let name := if complement then text.tail else text
    match name.dropWhile (· != ':') with
    | ':' :: ']' :: rest =>
      if classNames.contains (String.ofList (name.takeWhile (· != ':'))) then
        some (complement, rest)
      else none
    | _ => none
  | _ => none

def allowsClass (m : Mode) (complement : Bool) : Bool :=
  if m.unicode then !m.caseless else !complement

def readMember (m : Mode) : List Char → Option (Symbol × List Char)
  | [] => none
  | '\\' :: rest => Symbol.readEscape m rest
  | c :: rest => some (.literal c, rest)

/-- Takes a member off the text or, around a hyphen, all from one member to another. -/
def skipRange (m : Mode) (text : List Char) : Option (List Char) :=
  (readMember m text).bind fun (first, rest) =>
    match m.skip rest with
    | [] => none
    | c :: rest =>
      if c ≠ '-' ∨ m.peek? rest = some ']' ∨ m.peek? rest = some '-' then
        if first.isMember m then some (c :: rest) else none
      else
        (readMember m (m.skip rest)).bind fun (last, rest) =>
          match first.char?, last.char? with
          | some a, some b =>
            if a ≤ b ∧ first.isMember m ∧ last.isMember m then some rest else none
          | _, _ => none

/-- Reads the set `s`, which is within the sets `outer`, to its end. Each step takes a character or
more, so the length of the text is fuel enough. -/
def readWithin (m : Mode) : Nat → CharSet → List CharSet → List Char → Option (Nat × List Char)
  | 0, _, _, _ => none
  | fuel + 1, s, outer, text =>
    match m.skip text with
    | [] => none
    | c :: rest =>
      if s.isFresh ∧ (c = '-' ∨ c = ']' ∧ s.members = []) then
        if (Symbol.literal c).isMember m then
          readWithin m fuel { s.insert 0 with isFresh := c == '-' } outer rest
        else none
      else if c = '[' then
        match readClass? rest with
        | some (complement, rest) =>
          if allowsClass m complement then readWithin m fuel (s.insert 0) outer rest else none
        | none => (open? m rest).bind fun (inner, rest) => readWithin m fuel inner (s :: outer) rest
      else if c = ']' then
        match outer with
        | [] => some (s.contentDepth + 1, rest)
        | t :: outer => readWithin m fuel (t.insert (s.contentDepth + 1)) outer rest
      else if (c = '&' ∨ c = '-' ∨ c = '~') ∧ rest.head? = some c then
        readWithin m fuel s.operate outer rest.tail
      else (skipRange m (c :: rest)).bind (readWithin m fuel (s.insert 0) outer)

/-- Reads a set behind its bracket: its depth and the rest. -/
def read (m : Mode) (text : List Char) : Option (Nat × List Char) :=
  (open? m text).bind fun (s, rest) => readWithin m (rest.length + 1) s [] rest

end CharSet

end TopicIndex.Log.Pattern
