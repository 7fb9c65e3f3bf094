import TopicIndex.Index
import TopicIndex.Log.Record

/-!
# Changes and what they report

The operations that change an index, as data. Carrying one out gives the new index and an event
that tells what happened, or the refusal of a strict index. `Index.run` carries out a list, passing
over what is refused.
-/

namespace TopicIndex

universe u

inductive Change (α : Type u) where
  | insert (topic : String) (value : α)
  | assign (topic : String) (value : α)
  | erase (topic : String) (value : α)
  | vacate (topic : String)
  | purge (value : α)
  | reset

/-- The topic that a change is about, if it is about one. -/
def Change.topic? {α : Type u} : Change α → Option String
  | .insert topic _ | .assign topic _ | .erase topic _ | .vacate topic => some topic
  | .purge _ | .reset => none

inductive Event where
  /-- `fresh`: no equal value was there. -/
  | inserted (topic : String) (fresh : Bool)
  | assigned (topic : String)
  /-- `emptied`: the topic had a node, and the index holds nothing now. -/
  | erased (topic : String) (emptied : Bool)
  | vacated (topic : String) (emptied : Bool)
  | purged (count : Nat)
  | reset
deriving DecidableEq

namespace Event

open Log

/-- Changes at a topic are told more quietly than those of the whole index. -/
def severity : Event → Severity
  | inserted .. | assigned .. | erased .. | vacated .. => .trace
  | purged .. | reset => .debug

def message : Event → String
  | inserted .. => "Added value to topic tree"
  | assigned .. => "Set value in topic tree"
  | erased .. => "Removed value from topic tree"
  | vacated .. => "Emptied topic in topic tree"
  | purged .. => "Cleared value from topic tree"
  | reset => "Topic tree reset"

def fields : Event → List (String × Field)
  | inserted topic fresh => [("topic", .text topic), ("added", .flag fresh)]
  | assigned topic => [("topic", .text topic)]
  | erased topic emptied => [("topic", .text topic), ("root_empty", .flag emptied)]
  | vacated topic emptied => [("topic", .text topic), ("root_empty", .flag emptied)]
  | purged count => [("removed", .number count)]
  | reset => []

def record (e : Event) : Record where
  severity := e.severity
  target := "mqtt_topic_tree::tree::topic_tree"
  message := e.message
  fields := e.fields

end Event

namespace Index

variable {α : Type u} [BEq α]

/-- Carries out a change, or refuses it. Whether a strict index refuses a topic is asked before anything is
changed, so with a refusal there is no index to go with it. -/
def apply (t : Index α) : Change α → Except Misplacement (Index α × Event)
  | .insert topic v =>
    match t.misplacement? topic with
    | some m => .error m
    | none => .ok (t.insert topic v, .inserted topic !((t.valuesAt topic).any (· == v)))
  | .assign topic v =>
    match t.misplacement? topic with
    | some m => .error m
    | none => .ok (t.assign topic v, .assigned topic)
  | .erase topic v =>
    let (after, emptied) := t.update (expunge v) topic
    .ok (after, .erased topic emptied)
  | .vacate topic =>
    let (after, emptied) := t.update (fun _ => []) topic
    .ok (after, .vacated topic emptied)
  | .purge v => .ok (t.purge v, .purged (t.root.occurrences v))
  | .reset => .ok (t.reset, .reset)

/-- The index after a change. A refusal comes before any change (`apply`), so the index goes on as it was. -/
def after (t : Index α) (c : Change α) : Index α :=
  match t.apply c with
  | .ok (t', _) => t'
  | .error _ => t

def run (t : Index α) (cs : List (Change α)) : Index α := cs.foldl after t

end Index

end TopicIndex
