import TopicIndex.Forest

/-!
# Outlines

A forest as rows, one per node: a node before what is below it, siblings by increasing segment
whatever their order in the forest.
-/

namespace TopicIndex

universe u

variable {α : Type u}

structure Row (α : Type u) where
  depth : Nat
  segment : String
  values : List α

/-- The segment stands as it is, followed by the number of values. -/
def Row.line (r : Row α) : String :=
  "| " ++ "".pushn ' ' (2 * r.depth) ++ "'" ++ r.segment ++ "' => " ++ toString r.values.length

namespace Forest

/-- Sets a tree behind the siblings with smaller segments. -/
def enqueue (segment : String) (values : List α) (below : Forest α) : Forest α → Forest α
  | nil => cons segment values below nil
  | cons s vs b rest =>
    if s < segment then cons s vs b (enqueue segment values below rest)
    else cons segment values below (cons s vs b rest)

/-- The same trees in increasing order of segments, at every level. -/
def sorted : Forest α → Forest α
  | nil => nil
  | cons s vs below rest => enqueue s vs (sorted below) (sorted rest)

def rows (depth : Nat) : Forest α → List (Row α)
  | nil => []
  | cons s vs below rest => ⟨depth, s, vs⟩ :: (rows (depth + 1) below ++ rows depth rest)

def outline (f : Forest α) : List (Row α) := f.sorted.rows 0

end Forest

end TopicIndex
