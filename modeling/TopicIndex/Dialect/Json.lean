import TopicIndex.Dialect
import TopicIndex.Json.Value

/-!
# Dialects as JSON

A dialect is written as an object of three strings. It is read from an object with these fields in
any order, each exactly once, among any others, or from the array of the three strings.
-/

namespace TopicIndex.Dialect

open Json

/-- The fields of a dialect. -/
inductive Part where
  | separator
  | single
  | multi
deriving DecidableEq

namespace Part

def name : Part → List Char
  | separator => "separator".toList
  | single => "single_level_wildcard".toList
  | multi => "multi_level_wildcard".toList

def ofName? (name : List Char) : Option Part :=
  [separator, single, multi].find? (·.name == name)

/-- The text of a part in a dialect. -/
def text (p : Part) (d : Dialect) : List Char :=
  match p with
  | separator => [d.separator]
  | single => d.single.toList
  | multi => d.multi.toList

/-- The part of a dialect as a field of an object. -/
def field (p : Part) (d : Dialect) : List Char := writeText p.name ++ ':' :: writeText (p.text d)

end Part

/-- Without blanks, fields in the order of the parts. -/
def encode (d : Dialect) : List Char :=
  '{' :: [','].intercalate ([Part.separator, .single, .multi].map (·.field d)) ++ ['}']

/-- The parts read so far. -/
structure Draft where
  separator : Option Char
  single : Option String
  multi : Option String

namespace Draft

def blank : Draft where
  separator := none
  single := none
  multi := none

def has (draft : Draft) : Part → Bool
  | .separator => draft.separator.isSome
  | .single => draft.single.isSome
  | .multi => draft.multi.isSome

/-- The separator is exactly one character. -/
def fill (draft : Draft) (p : Part) (text : List Char) : Except Fault Draft :=
  match p, text with
  | .separator, [c] => .ok { draft with separator := some c }
  | .separator, _ => .error .unsuitable
  | .single, text => .ok { draft with single := some (String.ofList text) }
  | .multi, text => .ok { draft with multi := some (String.ofList text) }

def finish : Draft → Except Fault Dialect
  | ⟨some separator, some single, some multi⟩ => .ok ⟨separator, single, multi⟩
  | _ => .error .unsuitable

/-- Reads the value of a part. -/
def readPart (draft : Draft) (p : Part) (text : List Char) : Reading Draft :=
  (readString text).andThen fun value rest =>
    match draft.fill p value with
    | .ok draft => .ok (draft, rest)
    | .error fault => .error fault

theorem takes_readPart (draft : Draft) (p : Part) (text : List Char) :
    Takes text (draft.readPart p text) := by
  refine (takes_readString text).andThen fun value rest => ?_
  split
  · exact .ok (Nat.le_refl _)
  · exact (Takes.error _).keeps

end Draft

/-- One field behind the quotation mark of its name. A repeated part is a fault before its value
is looked at; other fields are passed over. -/
def readField (draft : Draft) (text : List Char) : Reading Draft :=
  (readText text).andThen fun name rest =>
    match Part.ofName? name with
    | some p =>
      if draft.has p then .error .unsuitable
      else (Skipping.colon rest).andThen fun _ rest => draft.readPart p rest
    | none =>
      (Skipping.colon rest).andThen fun _ rest => (skipValue rest).map fun _ => draft

theorem takes_readField (draft : Draft) (text : List Char) :
    Takes text (readField draft text) := by
  refine (takes_readText text).andThen fun name rest => ?_
  split
  · split
    · exact (Takes.error _).keeps
    · exact ((Skipping.takes_colon rest).andThen fun _ r => (draft.takes_readPart _ r).keeps).keeps
  · exact ((Skipping.takes_colon rest).andThen fun _ r => ((takes_skipValue r).map _).keeps).keeps

/-- A field of an object, or its end; the flag is set until a field has been read. -/
def stepObject (state : Bool × Draft) (text : List Char) : Reading ((Bool × Draft) ⊕ Dialect) :=
  match skipBlanks text with
  | [] => .error .truncated
  | '}' :: rest =>
    match state.2.finish with
    | .ok d => .ok (.inr d, rest)
    | .error fault => .error fault
  | ',' :: rest =>
    if state.1 then .error .malformed
    else match skipBlanks rest with
      | [] => .error .truncated
      | '"' :: rest => (readField state.2 rest).map fun draft => .inl (false, draft)
      | _ => .error .malformed
  | '"' :: rest =>
    if state.1 then (readField state.2 rest).map fun draft => .inl (false, draft)
    else .error .malformed
  | _ => .error .malformed

theorem takes_stepObject (state : Bool × Draft) (text : List Char) :
    Takes text (stepObject state text) := by
  unfold stepObject
  split
  · exact .error _
  · next h =>
    split
    · exact .ok (length_lt_of_skipBlanks h)
    · exact .error _
  · next h =>
    have hrest := length_lt_of_skipBlanks h
    split
    · exact .error _
    · split
      · exact .error _
      · next h' =>
        have := length_lt_of_skipBlanks h'
        exact ((takes_readField _ _).map _).keeps.takes_of_lt (by omega)
      · exact .error _
  · next h =>
    split
    · exact ((takes_readField _ _).map _).keeps.takes_of_lt (length_lt_of_skipBlanks h)
    · exact .error _
  · exact .error _

def readObject (text : List Char) : Reading Dialect :=
  iterate ⟨stepObject, takes_stepObject⟩ (true, .blank) text

/-- Goes to the first element of an array. -/
def firstElement (text : List Char) : Reading Unit :=
  match skipBlanks text with
  | [] => .error .truncated
  | ']' :: _ => .error .unsuitable
  | rest => .ok ((), rest)

/-- Goes to a later element; an array that ends here is too short. -/
def nextElement (text : List Char) : Reading Unit :=
  match skipBlanks text with
  | [] => .error .truncated
  | ']' :: _ => .error .unsuitable
  | ',' :: rest =>
    match skipBlanks rest with
    | [] => .error .truncated
    | ']' :: _ => .error .malformed
    | rest => .ok ((), rest)
  | _ => .error .malformed

/-- Leaves an array with no further element. -/
def endArray (text : List Char) : Reading Unit :=
  match skipBlanks text with
  | [] => .error .truncated
  | ']' :: rest => .ok ((), rest)
  | _ => .error .malformed

def readArray (text : List Char) : Reading Dialect :=
  (firstElement text).andThen fun _ rest =>
  (Draft.blank.readPart .separator rest).andThen fun draft rest =>
  (nextElement rest).andThen fun _ rest =>
  (draft.readPart .single rest).andThen fun draft rest =>
  (nextElement rest).andThen fun _ rest =>
  (draft.readPart .multi rest).andThen fun draft rest =>
    match draft.finish with
    | .ok d => (endArray rest).map fun _ => d
    | .error fault => .error fault

def readDialect (text : List Char) : Reading Dialect :=
  match skipBlanks text with
  | '{' :: rest => readObject rest
  | '[' :: rest => readArray rest
  | other => .error (mismatch other)

/-- Only blanks may follow. -/
def decode (text : List Char) : Except Fault Dialect :=
  match readDialect text with
  | .ok (d, rest) => if skipBlanks rest = [] then .ok d else .error .malformed
  | .error fault => .error fault

end TopicIndex.Dialect
