import TopicIndex.Log.Directive

/-!
# Log filters

A filter text selects records by the directives between its commas. The highest in rank of those
that cover a record decides on it, and of two equal in rank the later. A record that no directive
covers is left out.
-/

namespace TopicIndex.Log

structure Filter where
  directives : List Directive
deriving DecidableEq

namespace Filter

/-- Lets nothing through. -/
def silent : Filter where
  directives := []

/-- One level for all records. -/
def all (level : Level) : Filter where
  directives := [⟨"", none, none, level⟩]

/-- Empty pieces are passed over; a text with no directive asks for errors only. -/
def read (text : String) : Except Directive.Fault Filter := do
  match ← ((text.toList.splitOn ',').filter (· ≠ [])).mapM Directive.read with
  | [] => return all (.upTo .error)
  | directives => return ⟨directives⟩

/-- A text with something malformed asks for what is at least informative. One that would be torn
gives no filter. -/
def ofText? (text : String) : Option Filter :=
  match read text with
  | .ok filter => some filter
  | .error .malformed => some (all (.upTo .info))
  | .error .torn => none

/-- The directive that decides on a record. -/
def directive? (f : Filter) (r : Record) : Option Directive :=
  (f.directives.filter (·.covers r)).foldl
    (fun best d =>
      match best with
      | some b => if b.outranks d then some b else some d
      | none => some d)
    none

def lets (f : Filter) (r : Record) : Bool :=
  match f.directive? r with
  | some d => d.level.lets r.severity
  | none => false

def select (f : Filter) (records : List Record) : List Record := records.filter f.lets

end Filter

end TopicIndex.Log
