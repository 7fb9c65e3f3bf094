import TopicIndex.Dialect

/-!
# Topic text

Raw text becomes a topic of the MQTT dialect in two steps. `canonical` merges runs of separators
and drops those at the end. `parse` then reads the segments from the left and reports the first
that may not stand where it does.
-/

namespace TopicIndex.Topic

/-- What the text is for. -/
inductive Role where
  /-- Wildcards are allowed, the multi-level one as the last segment. -/
  | filter
  /-- No wildcards. -/
  | name
deriving DecidableEq

inductive Error where
  | empty
  /-- A wildcard character beside others in a segment. -/
  | mixed (segment : String)
  /-- A wildcard in a name. -/
  | wildcard (topic : String)
  /-- A multi-level wildcard with a segment after it. -/
  | notLast (topic : String)
deriving DecidableEq

namespace Error

/-- The text an error blames. -/
def subject? : Error → Option String
  | empty => none
  | mixed segment => some segment
  | wildcard topic | notLast topic => some topic

def message : Error → String
  | empty => "Topic cannot be empty"
  | mixed segment => "Invalid wildcard usage in segment '" ++ segment ++ "'"
  | wildcard topic => "Wildcards are not allowed in topic '" ++ topic ++ "'"
  | notLast topic =>
    "Invalid topic pattern '" ++ topic ++ "': # wildcard can only be the last segment"

end Error

def isWildcardChar (c : Char) : Bool := c == '+' || c == '#'

/-- A wildcard character occurs anywhere in the text. -/
def mentionsWildcard (text : String) : Bool := text.toList.any isWildcardChar

/-- Keeps one separator of each run; `after` tells whether a separator stands before the text. -/
def mergeRuns (separator : Char) : (after : Bool) → List Char → List Char
  | _, [] => []
  | after, c :: text =>
    let rest := mergeRuns separator (c == separator) text
    if c == separator && after then rest else c :: rest

def trimEnd (separator : Char) (text : List Char) : List Char :=
  (text.reverse.dropWhile (· == separator)).reverse

def canonical (text : String) : String :=
  String.ofList (trimEnd Dialect.mqtt.separator (mergeRuns Dialect.mqtt.separator false text.toList))

/-- The first fault in the segments of `topic`. -/
def fault? (role : Role) (topic : String) : List String → Option Error
  | [] => none
  | segment :: rest =>
    match Dialect.mqtt.read segment with
    | .literal text => if mentionsWildcard text then some (.mixed text) else fault? role topic rest
    | .single => if role = .name then some (.wildcard topic) else fault? role topic rest
    | .multi =>
      if role = .name then some (.wildcard topic)
      else if rest = [] then none
      else some (.notLast topic)

def parse (role : Role) (text : String) : Except Error String :=
  let topic := canonical text
  if topic = "" then .error .empty
  else match fault? role topic (Dialect.mqtt.split topic) with
    | some e => .error e
    | none => .ok topic

end TopicIndex.Topic
