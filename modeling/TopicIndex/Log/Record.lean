import TopicIndex.Text.Quoted

/-!
# Log records

What a component tells its log: a severity, the target that names the component, a message and
named fields.
-/

namespace TopicIndex.Log

/-- From the gravest to the most talkative. -/
inductive Severity where
  | error
  | warn
  | info
  | debug
  | trace
deriving DecidableEq

namespace Severity

def rank : Severity → Nat
  | error => 1
  | warn => 2
  | info => 3
  | debug => 4
  | trace => 5

def label : Severity → String
  | error => "ERROR"
  | warn => "WARN"
  | info => "INFO"
  | debug => "DEBUG"
  | trace => "TRACE"

end Severity

inductive Field where
  | flag (b : Bool)
  | number (n : Nat)
  /-- Text that is quoted when it is written. -/
  | text (s : String)
  /-- Text that is written as it is. -/
  | bare (s : String)
deriving DecidableEq

def Field.written : Field → String
  | flag b => if b then "true" else "false"
  | number n => toString n
  | text s => Text.quote s
  | bare s => s

structure Record where
  severity : Severity
  target : String
  message : String
  fields : List (String × Field)
deriving DecidableEq

/-- The message is a field like the others. -/
def Record.fieldNames (r : Record) : List String := "message" :: r.fields.map (·.1)

/-- The line of a record. -/
def Record.line (r : Record) : String :=
  r.severity.label ++ " " ++ r.target ++ ": " ++ r.message ++
    String.join (r.fields.map fun (name, field) => " " ++ name ++ "=" ++ field.written)

end TopicIndex.Log
