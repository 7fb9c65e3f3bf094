import TopicIndex.Log.Level
import TopicIndex.Log.Pattern

/-!
# Directives

A directive gives a level to the records of some targets: `level`, `target`, `target=level`, or
with a span and a field in brackets `target[span{field}]=level`, where target and span may be
missing and the field may be compared with a value, `{field=value}`. A directive without a level
lets everything through.

The form is read off the text without the space around it, but the parts are cut out of the whole
text, at the same distances in bytes. So space in front moves every part, and space behind belongs
to the last one.
-/

namespace TopicIndex.Log

/-- What a directive asks of a field: to be there, or to have a value. -/
structure FieldTest where
  name : String
  value : Option String
deriving DecidableEq

/-- The empty target is that of every record. -/
structure Directive where
  target : String
  span : Option String
  field : Option FieldTest
  level : Level
deriving DecidableEq

namespace Directive

inductive Fault where
  /-- Not a directive. -/
  | malformed
  /-- A part would begin or end within a character. -/
  | torn
deriving DecidableEq

/-- The length in bytes. -/
def width (text : List Char) : Nat := (String.ofList text).utf8ByteSize

/-- The characters in the first `n` bytes, and those behind them. -/
def splitBytes : Nat → List Char → Except Fault (List Char × List Char)
  | 0, text => .ok ([], text)
  | _ + 1, [] => .error .torn
  | n + 1, c :: text =>
    if c.utf8Size ≤ n + 1 then
      (splitBytes (n + 1 - c.utf8Size) text).map fun (front, rest) => (c :: front, rest)
    else .error .torn
termination_by _ text => text

/-- The part of a text between two positions. -/
def cut (text : List Char) (start stop : Nat) : Except Fault String := do
  let (_, rest) ← splitBytes start text
  let (part, _) ← splitBytes (stop - start) rest
  return String.ofList part

def cutFrom (text : List Char) (start : Nat) : Except Fault String :=
  (splitBytes start text).map fun (_, rest) => String.ofList rest

def isNumeral (text : List Char) : Bool :=
  let exponent := (text.dropWhile fun c => c.isDigit || c == '.').map Char.toLower
  let mantissa := text.takeWhile fun c => c.isDigit || c == '.'
  let power := match exponent.tail with
    | '+' :: digits | '-' :: digits => digits
    | digits => digits
  mantissa.any Char.isDigit && mantissa.count '.' ≤ 1 &&
    (exponent == [] || exponent.head? == some 'e' && power != [] && power.all Char.isDigit)

/-- A number with a plus sign is a value, but not a pattern. -/
def isPlusNumber : List Char → Bool
  | '+' :: text =>
    isNumeral text || ["inf", "infinity", "nan"].contains (String.ofList text).toLower
  | _ => false

/-- A name, or a name and a value between which the first equality sign stands. What follows a
second one is passed over. -/
def readField (text : String) : Except Fault FieldTest :=
  match text.toList.splitOn '=' with
  | [] | [[]] => .error .malformed
  | [name] => .ok ⟨String.ofList name, none⟩
  | name :: value :: _ =>
    if isPlusNumber value || Pattern.isPattern value then
      .ok ⟨String.ofList name, some (String.ofList value)⟩
    else .error .malformed

/-- The level at a position behind the equality sign. -/
def readLevel (text : List Char) (start : Nat) : Except Fault Level := do
  let name ← cutFrom text start
  if name = "" then return .upTo .trace
  match Level.ofText? name with
  | some level => return level
  | none => .error .malformed

/-- The end of a directive behind its target or bracket. -/
def readEnd (text : List Char) (start : Nat) : List Char → Except Fault Level
  | [] => .ok (.upTo .trace)
  | '=' :: _ => readLevel text (start + 1)
  | _ => .error .malformed

/-- A span with its field, and the level behind its bracket. -/
def readSpan (text : List Char) (target : String) (start : Nat) (body : List Char) :
    Except Fault Directive := do
  let isInside := fun c => c != ']' && c != '{'
  let stop := start + width (body.takeWhile isInside)
  match body.dropWhile isInside with
  | [] => .error .malformed
  | ']' :: rest =>
    let span ← cut text start stop
    return ⟨target, some span, none, ← readEnd text (stop + 1) rest⟩
  | _ :: inner =>
    let span ← cut text start stop
    let fieldStop := stop + 1 + width (inner.takeWhile (· != '}'))
    match inner.dropWhile (· != '}') with
    | [] => .error .malformed
    | _ :: rest =>
      let field ← readField (← cut text (stop + 1) fieldStop)
      match rest with
      | ']' :: rest =>
        return ⟨target, if span = "" then none else some span, some field,
          ← readEnd text (fieldStop + 2) rest⟩
      | _ => .error .malformed

def isInitial (c : Char) : Bool :=
  c == '-' || c == ':' || c == '_' || Text.isAlphabetic c || Text.isNumeric c

def read (text : List Char) : Except Fault Directive :=
  match Text.trim text with
  | [] => .error .malformed
  | '[' :: rest => readSpan text "" 1 rest
  | c :: rest => do
    if !isInitial c then .error .malformed
    let isInside := fun c => c != '=' && c != '['
    let stop := width (c :: rest.takeWhile isInside)
    match rest.dropWhile isInside with
    | [] =>
      match Level.ofText? (String.ofList text) with
      | some level => return ⟨"", none, none, level⟩
      | none => return ⟨String.ofList text, none, none, .upTo .trace⟩
    | '=' :: _ => return ⟨← cut text 0 stop, none, none, ← readLevel text (stop + 1)⟩
    | _ :: rest => readSpan text (← cut text 0 stop) (stop + 1) rest

/-- Records are written outside of spans. So no record is selected by a span, nor by the value of a
field, which is that of a span. -/
def covers (d : Directive) (r : Record) : Bool :=
  d.target.toList.isPrefixOf r.target.toList && d.span.isNone &&
    d.field.all fun field => field.value.isNone && r.fieldNames.contains field.name

/-- Of two directives that cover the same record, the one with the longer target decides, then one
with a field before one without, then the one with the greater name. -/
def outranks (d e : Directive) : Bool :=
  e.target.length < d.target.length ||
    d.target.length = e.target.length &&
      match d.field, e.field with
      | some field, some other => other.name < field.name
      | some _, none => true
      | none, _ => false

end Directive

end TopicIndex.Log
