import TopicIndex.Change
import TopicIndex.Inspection
import TopicIndex.Topic

/-!
# Requests to an index

Everything one can ask of an index, as data, and its replies. A query leaves the index as it is; a
change reports an event and the measures of the index afterwards.
-/

namespace TopicIndex

universe u

inductive Query where
  | valuesAt (topic : String)
  | matching (topic : String)
  | firstMatching (topic : String)
  | overlapping (pattern : String)
  | firstOverlapping (pattern : String)
  /-- Reads the text as a topic name, then looks for what matches it. -/
  | publish (text : String)
  | all
  | size
  | isEmpty
  | display
  | dialect
  | node (path : List String)
  | inspect

inductive Answer (α : Type u) where
  /-- Values in an order of their own. -/
  | listed (values : List α)
  /-- Values whose order means nothing. -/
  | gathered (values : List α)
  | first (value? : Option α)
  /-- One of the values gathered, whichever. -/
  | oneOf (value? : Option α) (values : List α)
  | number (n : Nat)
  | flag (b : Bool)
  | text (s : String)
  | dialect (d : Dialect)
  | node (n? : Option (Node α))
  | inspection (s? : Option String)
  | rejected (e : Topic.Error)

inductive Request (α : Type u) where
  | change (c : Change α)
  | ask (q : Query)
  /-- Reads the text as a topic filter, then stores the value under it. -/
  | subscribe (text : String) (value : α)

/-- The measures of an index. -/
structure Status where
  size : Nat
  nodeCount : Nat
  isEmpty : Bool
deriving DecidableEq

inductive Reply (α : Type u) where
  | changed (event : Event) (status : Status)
  | refused (m : Misplacement) (status : Status)
  | rejected (e : Topic.Error)
  | answered (a : Answer α)

/-- The event that a reply reports. -/
def Reply.event? {α : Type u} : Reply α → Option Event
  | .changed event _ => some event
  | .refused .. | .rejected _ | .answered _ => none

namespace Index

variable {α : Type u}

def status (t : Index α) : Status where
  size := t.size
  nodeCount := t.nodeCount
  isEmpty := t.isEmpty

variable [BEq α]

def answer [ToString α] (t : Index α) : Query → Answer α
  | .valuesAt topic => .listed (t.valuesAt topic)
  | .matching topic => .listed (t.matching topic)
  | .firstMatching topic => .first (t.firstMatching? topic)
  | .overlapping pattern =>
    if t.dialect.isConcrete (t.path pattern) then .listed (t.overlapping pattern)
    else .gathered (t.overlapping pattern)
  | .firstOverlapping pattern =>
    if t.dialect.isConcrete (t.path pattern) then .first (t.firstOverlapping? pattern)
    else .oneOf (t.firstOverlapping? pattern) (t.overlapping pattern)
  | .publish text =>
    match Topic.parse .name text with
    | .ok topic => .listed (t.matching topic)
    | .error e => .rejected e
  | .all => .gathered t.all
  | .size => .number t.size
  | .isEmpty => .flag t.isEmpty
  | .display => .text t.display
  | .dialect => .dialect t.dialect
  | .node path => .node (t.node? path)
  | .inspect => .inspection t.inspect?

/-- The index after a change, and the reply with its measures. As the topic is checked before any change, a
refusal is told with those of the index given. -/
def carryOut (t : Index α) (c : Change α) : Index α × Reply α :=
  match t.apply c with
  | .ok (t', event) => (t', .changed event t'.status)
  | .error m => (t, .refused m t.status)

def serve [ToString α] (t : Index α) : Request α → Index α × Reply α
  | .change c => t.carryOut c
  | .ask q => (t, .answered (t.answer q))
  | .subscribe text v =>
    match Topic.parse .filter text with
    | .ok topic => t.carryOut (.insert topic v)
    | .error e => (t, .rejected e)

/-- Serves the requests one after the other. -/
def serveAll [ToString α] (t : Index α) : List (Request α) → Index α × List (Reply α)
  | [] => (t, [])
  | r :: rs =>
    let (t₁, reply) := t.serve r
    let (t₂, replies) := t₁.serveAll rs
    (t₂, reply :: replies)

theorem carryOut_fst (t : Index α) (c : Change α) : (t.carryOut c).1 = t.after c := by
  rw [carryOut, after]
  cases t.apply c <;> rfl

variable [ToString α]

theorem serveAll_append (t : Index α) (rs qs : List (Request α)) : t.serveAll (rs ++ qs) =
    (((t.serveAll rs).1.serveAll qs).1, (t.serveAll rs).2 ++ ((t.serveAll rs).1.serveAll qs).2) := by
  induction rs generalizing t with
  | nil => rfl
  | cons r rs ih => simp [serveAll, ih]

theorem serveAll_change (t : Index α) (cs : List (Change α)) :
    (t.serveAll (cs.map .change)).1 = t.run cs := by
  induction cs generalizing t with
  | nil => rfl
  | cons c cs ih => exact (ih _).trans (congrArg (fun t' : Index α => t'.run cs) (carryOut_fst t c))

theorem serveAll_ask (t : Index α) (qs : List Query) :
    t.serveAll (qs.map .ask) = (t, qs.map fun q => .answered (t.answer q)) := by
  induction qs with
  | nil => rfl
  | cons q qs ih => simp [serveAll, serve, ih]

end Index

end TopicIndex
