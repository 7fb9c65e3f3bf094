import TopicIndex.Dialect
import TopicIndex.Node

/-!
# Which stored values a topic meets

Stored paths are patterns. `matching` visits the values whose pattern covers a given path, in a
fixed order: at each node the literal child, then the single-level child, then the values of the
multi-level child. `overlapping` takes a pattern on both sides: a single-level segment of the query
goes to every child, a multi-level one takes all that is left. Both may visit a value more than
once; the `first…?` forms stop at the first value.
-/

namespace TopicIndex

universe u

variable {α : Type u}

namespace Node

/-- The values whose pattern ends here in the multi-level token. -/
def multiValues (d : Dialect) (n : Node α) : List α := (n.child d.multi).values

/-- A wildcard in the path is no literal: it is only met by patterns that cover any segment. -/
def matching (d : Dialect) (n : Node α) : List String → List α
  | [] => n.values ++ n.multiValues d
  | segment :: path =>
    (match d.read segment with
      | .literal text => n.atChild text (matching d · path)
      | .single | .multi => []) ++
    (n.atChild d.single (matching d · path) ++ n.multiValues d)

def firstMatching? (d : Dialect) (n : Node α) : List String → Option α
  | [] => n.values.head? <|> (n.multiValues d).head?
  | segment :: path =>
    (match d.read segment with
      | .literal text => (n.child? text).bind (firstMatching? d · path)
      | .single | .multi => none) <|>
    ((n.child? d.single).bind (firstMatching? d · path) <|> (n.multiValues d).head?)

/-- What follows a multi-level segment of the query plays no part. -/
def overlapping (d : Dialect) (n : Node α) : List String → List α
  | [] => n.values ++ n.multiValues d
  | segment :: path =>
    match d.read segment with
    | .literal text =>
      n.atChild text (overlapping d · path) ++
        (n.atChild d.single (overlapping d · path) ++ n.multiValues d)
    | .single => n.children.flatMap (overlapping d · path) ++ n.multiValues d
    | .multi => n.allValues

def firstOverlapping? (d : Dialect) (n : Node α) : List String → Option α
  | [] => n.values.head? <|> (n.multiValues d).head?
  | segment :: path =>
    match d.read segment with
    | .literal text =>
      (n.child? text).bind (firstOverlapping? d · path) <|>
        ((n.child? d.single).bind (firstOverlapping? d · path) <|> (n.multiValues d).head?)
    | .single =>
      n.children.findSome? (firstOverlapping? d · path) <|> (n.multiValues d).head?
    | .multi => n.firstValue?

@[simp] theorem matching_empty (d : Dialect) (path : List String) :
    (empty : Node α).matching d path = [] := by
  cases path with
  | nil => rfl
  | cons segment path => rw [matching]; cases d.read segment <;> rfl

@[simp] theorem overlapping_empty (d : Dialect) (path : List String) :
    (empty : Node α).overlapping d path = [] := by
  cases path with
  | nil => rfl
  | cons segment path => rw [overlapping]; cases d.read segment <;> rfl

theorem firstMatching?_eq_head? (d : Dialect) (n : Node α) (path : List String) :
    n.firstMatching? d path = (n.matching d path).head? := by
  induction path generalizing n with
  | nil => simp [firstMatching?, matching, List.head?_append]
  | cons segment path ih =>
    rw [firstMatching?, matching, List.head?_append, List.head?_append, head?_atChild ih]
    cases d.read segment with
    | literal text => simp [head?_atChild ih]
    | single | multi => simp

theorem firstOverlapping?_eq_head? (d : Dialect) (n : Node α) (path : List String) :
    n.firstOverlapping? d path = (n.overlapping d path).head? := by
  induction path generalizing n with
  | nil => simp [firstOverlapping?, overlapping, List.head?_append]
  | cons segment path ih =>
    rw [firstOverlapping?, overlapping]
    cases d.read segment with
    | literal text => simp [head?_atChild ih, List.head?_append]
    | single => simp [Forest.findSome?_eq_head? ih, List.head?_append]
    | multi => exact firstValue?_eq_head? n

/-- Without wildcards in the query a search goes the way of a match. -/
theorem overlapping_eq_matching {d : Dialect} {path : List String} (h : d.isConcrete path = true)
    (n : Node α) : n.overlapping d path = n.matching d path := by
  induction path generalizing n with
  | nil => rfl
  | cons segment path ih =>
    obtain ⟨hs, hp⟩ : (d.read segment).isWildcard = false ∧ d.isConcrete path = true := by
      simpa [Dialect.isConcrete] using h
    have heq : (fun c : Node α => c.overlapping d path) = (matching d · path) := funext (ih hp)
    rw [overlapping, matching, Dialect.read_eq_literal hs, heq]

end Node

end TopicIndex
