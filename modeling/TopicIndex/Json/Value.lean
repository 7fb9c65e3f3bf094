import TopicIndex.Json.Number
import TopicIndex.Json.Text

/-!
# Values of any kind

`skipValue` passes over one JSON value, however deeply nested. `mismatch` is the fault of a text
that begins with a value of a kind that was not asked for: `unsuitable`, unless the value itself is
faulty. `readString` asks for a string.
-/

namespace TopicIndex.Json

inductive Container where
  | array
  | object
deriving DecidableEq

def Container.closing : Container → Char
  | array => ']'
  | object => '}'

/-- How far the skipping is, with the containers around it from the inside out. -/
inductive Skipping where
  /-- A value is due. -/
  | value (within : List Container)
  /-- A container has just been opened. -/
  | opened (c : Container) (within : List Container)
  /-- A member of a container has just ended. -/
  | filled (c : Container) (within : List Container)

namespace Skipping

/-- After a value, or a container, has ended. -/
def leave : List Container → Skipping ⊕ Unit
  | [] => .inr ()
  | c :: within => .inl (filled c within)

def scalar : List Char → Reading Unit
  | [] => .error .truncated
  | '"' :: rest => skipText rest
  | 'n' :: rest => readWord ['u', 'l', 'l'] rest
  | 't' :: rest => readWord ['r', 'u', 'e'] rest
  | 'f' :: rest => readWord ['a', 'l', 's', 'e'] rest
  | '-' :: rest => (Number.read .malformed rest).map fun _ => ()
  | c :: rest =>
    if c.isDigit then (Number.read .malformed (c :: rest)).map fun _ => ()
    else .error .malformed

def begin (within : List Container) : List Char → Reading (Skipping ⊕ Unit)
  | '[' :: rest => .ok (.inl (opened .array within), rest)
  | '{' :: rest => .ok (.inl (opened .object within), rest)
  | text => (scalar text).map fun _ => leave within

def colon (text : List Char) : Reading Unit :=
  match skipBlanks text with
  | [] => .error .truncated
  | ':' :: rest => .ok ((), rest)
  | _ => .error .malformed

/-- A key with its colon. -/
def key : List Char → Reading Unit
  | [] => .error .truncated
  | '"' :: rest => (skipText rest).andThen fun _ rest => colon rest
  | _ => .error .malformed

/-- Begins an element of an array, or reads the key of a member of an object. -/
def member (c : Container) (within : List Container) (text : List Char) :
    Reading (Skipping ⊕ Unit) :=
  match c with
  | .array => begin (.array :: within) text
  | .object => (key text).map fun _ => .inl (value (.object :: within))

def step (s : Skipping) (text : List Char) : Reading (Skipping ⊕ Unit) :=
  match s, skipBlanks text with
  | _, [] => .error .truncated
  | value within, d :: rest => begin within (d :: rest)
  | opened c within, d :: rest =>
    if d = c.closing then .ok (leave within, rest) else member c within (d :: rest)
  | filled c within, d :: rest =>
    if d = c.closing then .ok (leave within, rest)
    else if d = ',' then member c within (skipBlanks rest)
    else .error .malformed

theorem takes_scalar (text : List Char) : Takes text (scalar text) := by
  unfold scalar
  split
  · exact .error _
  · exact (takes_skipText _).keeps.cons _
  · exact (keeps_readWord _ _).cons _
  · exact (keeps_readWord _ _).cons _
  · exact (keeps_readWord _ _).cons _
  · exact ((Number.takes_read _ _).map _).keeps.cons _
  · split
    · exact (Number.takes_read _ _).map _
    · exact .error _

theorem takes_begin (within : List Container) (text : List Char) :
    Takes text (begin within text) := by
  unfold begin
  split
  · exact .ok (by simp)
  · exact .ok (by simp)
  · exact (takes_scalar _).map _

theorem takes_colon (text : List Char) : Takes text (colon text) := by
  unfold colon
  split
  · exact .error _
  · next h => exact .ok (length_lt_of_skipBlanks h)
  · exact .error _

theorem takes_key (text : List Char) : Takes text (key text) := by
  unfold key
  split
  · exact .error _
  · next rest =>
    have h := (takes_skipText rest).andThen fun _ r => (takes_colon r).keeps
    exact h.keeps.cons _
  · exact .error _

theorem takes_member (c : Container) (within : List Container) (text : List Char) :
    Takes text (member c within text) := by
  cases c with
  | array => exact takes_begin _ _
  | object => exact (takes_key _).map _

theorem takes_step (s : Skipping) (text : List Char) : Takes text (step s text) := by
  have hlen := length_skipBlanks_le text
  unfold step
  split
  · exact .error _
  · next h => exact (takes_begin _ _).of_le (h ▸ hlen)
  · next h =>
    split
    · exact .ok (length_lt_of_skipBlanks h)
    · exact (takes_member _ _ _).of_le (h ▸ hlen)
  · next rest h =>
    have hrest := length_lt_of_skipBlanks h
    split
    · exact .ok hrest
    · split
      · exact (takes_member _ _ _).of_le (by have := length_skipBlanks_le rest; omega)
      · exact .error _

end Skipping

/-- Passes over one value. -/
def skipValue (text : List Char) : Reading Unit :=
  iterate ⟨Skipping.step, Skipping.takes_step⟩ (.value []) text

theorem takes_skipValue (text : List Char) : Takes text (skipValue text) := takes_iterate _ _ _

/-- The fault of a reading, or `unsuitable` where it has none. -/
def Fault.ofReading {β : Type} : Reading β → Fault
  | .error fault => fault
  | .ok _ => .unsuitable

/-- A number that is too large for a double is malformed. -/
def numberFault (text : List Char) : Fault :=
  match Number.read .truncated text with
  | .error fault => fault
  | .ok (n, _) => if n.isTooLarge then .malformed else .unsuitable

/-- The fault of a value that was not asked for. -/
def mismatch : List Char → Fault
  | [] => .truncated
  | '[' :: _ => .unsuitable
  | '{' :: _ => .unsuitable
  | '"' :: rest => .ofReading (readText rest)
  | 'n' :: rest => .ofReading (readWord ['u', 'l', 'l'] rest)
  | 't' :: rest => .ofReading (readWord ['r', 'u', 'e'] rest)
  | 'f' :: rest => .ofReading (readWord ['a', 'l', 's', 'e'] rest)
  | '-' :: rest => numberFault rest
  | c :: rest => if c.isDigit then numberFault (c :: rest) else .malformed

/-- Reads a string where one is asked for. -/
def readString (text : List Char) : Reading (List Char) :=
  match skipBlanks text with
  | '"' :: rest => readText rest
  | other => .error (mismatch other)

theorem takes_readString (text : List Char) : Takes text (readString text) := by
  unfold readString
  split
  · next h => exact (takes_readText _).keeps.takes_of_lt (length_lt_of_skipBlanks h)
  · exact .error _

end TopicIndex.Json
