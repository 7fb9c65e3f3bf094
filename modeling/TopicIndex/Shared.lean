import TopicIndex.Request

/-!
# A shared index

An index behind a lock. A writer that fails while it holds the lock leaves it poisoned. A poisoned
lock hands its content out as an error; everyone goes on with it all the same (`Lock.recover`), and
only the inspection text tells. Several requests may be served under one hold of the lock, where a
refused change does not count as a failure of the writer. Taking the index out and sharing it again
gives a fresh lock.
-/

namespace TopicIndex

universe u

/-- A lock around some content. -/
structure Lock (β : Type u) where
  content : β
  poisoned : Bool

namespace Lock

variable {β : Type u}

def ofContent (b : β) : Lock β where
  content := b
  poisoned := false

/-- The content as it is handed out to whoever takes the lock: by a poisoned lock as an error. -/
def acquire (l : Lock β) : Except β β :=
  if l.poisoned then .error l.content else .ok l.content

/-- The content, in whichever way it was handed out. -/
def recover : Except β β → β
  | .ok b | .error b => b

/-- Gives the lock back after writing. -/
def release (l : Lock β) (b : β) (failed : Bool) : Lock β where
  content := b
  poisoned := l.poisoned || failed

@[simp] theorem recover_acquire (l : Lock β) : recover l.acquire = l.content := by
  unfold acquire
  split <;> rfl

/-- The inspection text of a lock around that of its content. -/
def inspect (poisoned : Bool) (text : String) : String :=
  "RwLock \x7b data: " ++ text ++ ", poisoned: " ++ (if poisoned then "true" else "false") ++ ", .. \x7d"

end Lock

structure Shared (α : Type u) where
  lock : Lock (Index α)

namespace Shared

variable {α : Type u}

def ofIndex (t : Index α) : Shared α where
  lock := .ofContent t

/-- The index as it is read, written or taken out, from a poisoned lock as from any other. -/
def index (s : Shared α) : Index α := Lock.recover s.lock.acquire

def poisoned (s : Shared α) : Bool := s.lock.poisoned

/-- The shared index after a writer, who may have failed. -/
def written (s : Shared α) (t : Index α) (failed : Bool) : Shared α where
  lock := s.lock.release t failed

inductive Step (α : Type u) where
  | single (r : Request α)
  /-- Requests under one hold of the lock for writing. -/
  | write (rs : List (Request α))
  /-- Queries under one hold of the lock for reading. -/
  | read (qs : List Query)
  /-- Takes the index out and shares it again. -/
  | renew
  /-- A writer that stores a value and then fails while holding the lock. -/
  | failWriting (topic : String) (value : α)

inductive Response (α : Type u) where
  | single (r : Reply α)
  | batch (rs : List (Reply α))
  | renewed (status : Status)
  | failed (event : Event) (status : Status)

/-- How a failing writer explains itself. -/
def failure : String := "writer failed while holding the lock"

/-- Takes the lock by itself. -/
def display (s : Shared α) : String := (Lock.recover s.lock.acquire).display

def inspection (poisoned : Bool) (text : String) : String :=
  "SharedTopicTree \x7b inner: " ++ Lock.inspect poisoned text ++ " \x7d"

def inspect? [ToString α] (s : Shared α) : Option String :=
  s.index.inspect?.map (inspection s.poisoned)

/-- A refused change fails the writer that holds the lock for it alone. -/
def isFailure : Reply α → Bool
  | .refused .. => true
  | .changed .. | .rejected _ | .answered _ => false

variable [BEq α] [ToString α]

def answer (s : Shared α) : Query → Answer α
  | .inspect => .inspection s.inspect?
  | .display => .text s.display
  | q => s.index.answer q

def serve (s : Shared α) : Step α → Shared α × Response α
  | .single (.ask q) => (s, .single (.answered (s.answer q)))
  | .single r =>
    let (t, reply) := s.index.serve r
    (s.written t (isFailure reply), .single reply)
  | .write rs =>
    let (t, replies) := s.index.serveAll rs
    (s.written t false, .batch replies)
  | .read qs => (s, .batch (qs.map fun q => .answered (s.index.answer q)))
  | .renew => (.ofIndex s.index, .renewed s.index.status)
  | .failWriting topic v =>
    match s.index.apply (.insert topic v) with
    | .ok (t, event) => (s.written t true, .failed event t.status)
    | .error m => (s.written s.index true, .single (.refused m s.index.status))

def serveAll (s : Shared α) : List (Step α) → Shared α × List (Response α)
  | [] => (s, [])
  | step :: steps =>
    let (s₁, response) := s.serve step
    let (s₂, responses) := s₁.serveAll steps
    (s₂, response :: responses)

end Shared

end TopicIndex
