import TopicIndex.Matching
import TopicIndex.Outline

/-!
# The topic index

Values stored under topics of a dialect. A stored topic is a pattern: its wildcard segments stand
for the segments of the topics looked up. Values need an equality test only, which may fail for a
value and itself; such a value is never found equal, so it is neither merged nor erased.
-/

namespace TopicIndex

universe u

/-- What happens to a topic with the multi-level token before its last segment. -/
inductive Guard where
  /-- It is refused. -/
  | strict
  /-- Its segments are stored as they are. -/
  | lenient
deriving DecidableEq

structure Index (α : Type u) where
  dialect : Dialect
  guard : Guard
  root : Node α

variable {α : Type u}

/-- The refusal of a topic by a strict index. -/
structure Misplacement where
  token : String
  topic : String
deriving DecidableEq

def Misplacement.message (m : Misplacement) : String :=
  "'" ++ m.token ++ "' may only appear as the last segment of '" ++ m.topic ++ "'"

namespace Index

def empty (dialect : Dialect) (guard : Guard) : Index α where
  dialect := dialect
  guard := guard
  root := .empty

def path (t : Index α) (topic : String) : List String := t.dialect.split topic

def isEmpty (t : Index α) : Bool := t.root.isEmpty

/-- The number of stored values. -/
def size (t : Index α) : Nat := t.root.size

/-- The number of nodes below the root. -/
def nodeCount (t : Index α) : Nat := t.root.children.nodeCount

/-- The values stored under exactly this topic. -/
def valuesAt (t : Index α) (topic : String) : List α := t.root.valuesAt (t.path topic)

section Queries

variable [BEq α]

/-- Every stored value, equal ones once. -/
def all (t : Index α) : List α := t.root.allValues.eraseDups

/-- The values whose pattern covers the topic, equal ones once. -/
def matching (t : Index α) (topic : String) : List α :=
  (t.root.matching t.dialect (t.path topic)).eraseDups

/-- The values whose pattern has a topic in common with the given one, equal ones once. -/
def overlapping (t : Index α) (pattern : String) : List α :=
  (t.root.overlapping t.dialect (t.path pattern)).eraseDups

end Queries

def firstMatching? (t : Index α) (topic : String) : Option α :=
  t.root.firstMatching? t.dialect (t.path topic)

def firstOverlapping? (t : Index α) (pattern : String) : Option α :=
  t.root.firstOverlapping? t.dialect (t.path pattern)

/-- The node reached by the given segments, which are not split. -/
def node? (t : Index α) (path : List String) : Option (Node α) := t.root.find? path

def outline (t : Index α) : List (Row α) := t.root.children.outline

/-- The outline under a title. -/
def display (t : Index α) : String :=
  "TopicTree:" ++ String.join (t.outline.map fun row => "\n" ++ row.line)

/-- Why a value may not be stored under a topic. -/
def misplacement? (t : Index α) (topic : String) : Option Misplacement :=
  if t.guard = .strict ∧ t.dialect.isMisplaced (t.path topic) = true then
    some ⟨t.dialect.multi, topic⟩
  else none

/-- Changes the values under a topic, which is there afterwards. -/
def store (f : List α → List α) (t : Index α) (topic : String) : Index α :=
  { t with root := t.root.store f (t.path topic) }

/-- Changes the values under a topic that is there, and tells whether nothing is left then. -/
def update (f : List α → List α) (t : Index α) (topic : String) : Index α × Bool :=
  let (root, emptied) := t.root.update f (t.path topic)
  ({ t with root := root }, emptied)

/-! The changes themselves do not ask whether the topic is refused; `Index.apply` does. -/

section Changes

variable [BEq α]

/-- Adds a value under a topic, after those it holds, unless it holds an equal one. -/
def insert (t : Index α) (topic : String) (v : α) : Index α := t.store (adjoin v) topic

/-- Makes the value the only one under a topic. -/
def assign (t : Index α) (topic : String) (v : α) : Index α := t.store (fun _ => [v]) topic

/-- Removes the values equal to the given one from a topic. -/
def erase (t : Index α) (topic : String) (v : α) : Index α := (t.update (expunge v) topic).1

/-- Removes all values from a topic. -/
def vacate (t : Index α) (topic : String) : Index α := (t.update (fun _ => []) topic).1

/-- Removes the values equal to the given one from every topic. -/
def purge (t : Index α) (v : α) : Index α := { t with root := t.root.purge v }

end Changes

def reset (t : Index α) : Index α := { t with root := .empty }

end Index

end TopicIndex
