import TopicIndex.Json.Reader

/-!
# JSON strings

`writeText` escapes quotation marks, backslashes and control characters only. `readText` reads any
JSON string, with escapes of every kind; a surrogate escape has to be one half of a pair. `skipText`
passes over a string and asks less: surrogates may stand alone.
-/

namespace TopicIndex.Json

/-- A control character without a short escape. -/
def controlEscape (n : Nat) : List Char :=
  ['\\', 'u', '0', '0', Nat.digitChar (n / 16), Nat.digitChar (n % 16)]

def escape (c : Char) : List Char :=
  match c with
  | '"' => ['\\', '"']
  | '\\' => ['\\', '\\']
  | '\x08' => ['\\', 'b']
  | '\t' => ['\\', 't']
  | '\n' => ['\\', 'n']
  | '\x0c' => ['\\', 'f']
  | '\r' => ['\\', 'r']
  | c => if c.toNat < 0x20 then controlEscape c.toNat else [c]

/-- The characters as a JSON string. -/
def writeText (text : List Char) : List Char := '"' :: (text.flatMap escape ++ ['"'])

/-- What a short escape stands for. -/
def shortEscape? (c : Char) : Option Char :=
  match c with
  | '"' => some '"'
  | '\\' => some '\\'
  | '/' => some '/'
  | 'b' => some '\x08'
  | 'f' => some '\x0c'
  | 'n' => some '\n'
  | 'r' => some '\r'
  | 't' => some '\t'
  | _ => none

def hexValue? (c : Char) : Option Nat :=
  if c.isDigit then some (c.toNat - 48)
  else if 'a' ≤ c ∧ c ≤ 'f' then some (c.toNat - 87)
  else if 'A' ≤ c ∧ c ≤ 'F' then some (c.toNat - 55)
  else none

def utf8Length (text : List Char) : Nat := (String.ofList text).utf8ByteSize

/-- The code of four hexadecimal digits; fewer than four bytes are a text that ends early. -/
def readHex (text : List Char) : Reading Nat :=
  if utf8Length (text.take 4) < 4 then .error .truncated
  else match text with
    | a :: b :: c :: d :: rest =>
      match hexValue? a, hexValue? b, hexValue? c, hexValue? d with
      | some a, some b, some c, some d => .ok (((a * 16 + b) * 16 + c) * 16 + d, rest)
      | _, _, _, _ => .error .malformed
    | _ => .error .malformed

def isLeading (code : Nat) : Bool := 0xd800 ≤ code && code < 0xdc00

def isTrailing (code : Nat) : Bool := 0xdc00 ≤ code && code < 0xe000

/-- The second half of a surrogate pair, as an escape of its own. -/
def readTrailing (leading : Nat) (text : List Char) : Reading Char :=
  (readWord ['\\', 'u'] text).andThen fun _ rest =>
    (readHex rest).andThen fun code rest =>
      if isTrailing code then
        .ok (Char.ofNat (0x10000 + (leading - 0xd800) * 0x400 + (code - 0xdc00)), rest)
      else .error .malformed

/-- The character of a code escape, or of a pair of them. -/
def readCode (text : List Char) : Reading Char :=
  (readHex text).andThen fun code rest =>
    if isTrailing code then .error .malformed
    else if isLeading code then readTrailing code rest
    else .ok (Char.ofNat code, rest)

/-- What follows a backslash. -/
def readEscape : List Char → Reading Char
  | [] => .error .truncated
  | 'u' :: rest => readCode rest
  | c :: rest =>
    match shortEscape? c with
    | some e => .ok (e, rest)
    | none => .error .malformed

def skipEscape : List Char → Reading Unit
  | [] => .error .truncated
  | 'u' :: rest => (readHex rest).map fun _ => ()
  | c :: rest => if (shortEscape? c).isSome then .ok ((), rest) else .error .malformed

theorem takes_readHex (text : List Char) : Takes text (readHex text) := by
  unfold readHex
  split
  · exact .error _
  · split
    · split
      · exact .ok (by simp; omega)
      · exact .error _
    · exact .error _

theorem takes_readTrailing (leading : Nat) (text : List Char) :
    Takes text (readTrailing leading text) := by
  unfold readTrailing
  refine (keeps_readWord _ _).andThen_takes fun _ rest => ?_
  refine (takes_readHex rest).andThen fun code rest => ?_
  split
  · exact .ok (Nat.le_refl _)
  · exact (Takes.error _).keeps

theorem takes_readCode (text : List Char) : Takes text (readCode text) := by
  unfold readCode
  refine (takes_readHex text).andThen fun code rest => ?_
  split
  · exact (Takes.error _).keeps
  · split
    · exact (takes_readTrailing code rest).keeps
    · exact .ok (Nat.le_refl _)

theorem takes_readEscape (text : List Char) : Takes text (readEscape text) := by
  unfold readEscape
  split
  · exact .error _
  · exact (takes_readCode _).keeps.cons _
  · split
    · exact .ok (by simp)
    · exact .error _

theorem takes_skipEscape (text : List Char) : Takes text (skipEscape text) := by
  unfold skipEscape
  split
  · exact .error _
  · exact ((takes_readHex _).map _).keeps.cons _
  · split
    · exact .ok (by simp)
    · exact .error _

/-- One character of a string, or its end. The characters so far come last first. -/
def stepText (seen : List Char) : List Char → Reading (List Char ⊕ List Char)
  | [] => .error .truncated
  | '"' :: rest => .ok (.inr seen.reverse, rest)
  | '\\' :: rest => (readEscape rest).map fun c => .inl (c :: seen)
  | c :: rest => if c.toNat < 0x20 then .error .malformed else .ok (.inl (c :: seen), rest)

theorem takes_stepText (seen text : List Char) : Takes text (stepText seen text) := by
  unfold stepText
  split
  · exact .error _
  · exact .ok (by simp)
  · exact ((takes_readEscape _).map _).keeps.cons _
  · split
    · exact .error _
    · exact .ok (by simp)

/-- Reads a string whose first quotation mark has been read. -/
def readText (text : List Char) : Reading (List Char) :=
  iterate ⟨stepText, takes_stepText⟩ [] text

theorem takes_readText (text : List Char) : Takes text (readText text) := takes_iterate _ _ _

def stepOver (_ : Unit) : List Char → Reading (Unit ⊕ Unit)
  | [] => .error .truncated
  | '"' :: rest => .ok (.inr (), rest)
  | '\\' :: rest => (skipEscape rest).map .inl
  | c :: rest => if c.toNat < 0x20 then .error .malformed else .ok (.inl (), rest)

theorem takes_stepOver (u : Unit) (text : List Char) : Takes text (stepOver u text) := by
  unfold stepOver
  split
  · exact .error _
  · exact .ok (by simp)
  · exact ((takes_skipEscape _).map _).keeps.cons _
  · split
    · exact .error _
    · exact .ok (by simp)

/-- Passes over a string whose first quotation mark has been read. -/
def skipText (text : List Char) : Reading Unit := iterate ⟨stepOver, takes_stepOver⟩ () text

theorem takes_skipText (text : List Char) : Takes text (skipText text) := takes_iterate _ _ _

end TopicIndex.Json
