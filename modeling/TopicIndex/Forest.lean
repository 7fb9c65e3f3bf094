import TopicIndex.Values

/-!
# Forests of values

Values stored along paths of segments. A forest is a list of sibling trees; a node is a list of
values with the forest below it. Siblings are kept in increasing order of their segments (`replace`).
A tree that holds nothing stays unless it is taken out: one of its own (`remove`), or all of them on a
walk through the forest (`plant`). Reading (`child?` and the folds) does not rely on the order.
-/

namespace TopicIndex

universe u v

inductive Forest (α : Type u) where
  | nil
  | cons (segment : String) (values : List α) (below rest : Forest α)

structure Node (α : Type u) where
  values : List α
  children : Forest α

variable {α : Type u} {β : Type v}

namespace Forest

def isEmpty : Forest α → Bool
  | nil => true
  | cons .. => false

end Forest

namespace Node

def empty : Node α where
  values := []
  children := .nil

def isEmpty (n : Node α) : Bool :=
  n.values.isEmpty && n.children.isEmpty

@[simp] theorem isEmpty_iff {n : Node α} : n.isEmpty = true ↔ n = empty := by
  rcases n with ⟨_ | ⟨v, vs⟩, _ | _⟩ <;> simp [isEmpty, empty, Forest.isEmpty]

end Node

namespace Forest

def child? (segment : String) : Forest α → Option (Node α)
  | nil => none
  | cons s vs below rest => if s = segment then some ⟨vs, below⟩ else child? segment rest

/-- A missing child counts as the empty node. -/
def child (segment : String) (f : Forest α) : Node α :=
  (f.child? segment).getD .empty

/-- Replaces a child, or sets it at its place in the order. -/
def replace (segment : String) (n : Node α) : Forest α → Forest α
  | nil => cons segment n.values n.children nil
  | cons s vs below rest =>
    if s = segment then cons segment n.values n.children rest
    else if segment < s then cons segment n.values n.children (cons s vs below rest)
    else cons s vs below (replace segment n rest)

/-- Takes a child out. -/
def remove (segment : String) : Forest α → Forest α
  | nil => nil
  | cons s vs below rest => if s = segment then rest else cons s vs below (remove segment rest)

/-- Sets a tree in front of its siblings, unless it holds nothing. -/
def plant (segment : String) (n : Node α) (rest : Forest α) : Forest α :=
  if n.isEmpty then rest else cons segment n.values n.children rest

/-- Drops the values that are equal to `v`, and the trees that hold nothing then. -/
def purge [BEq α] (v : α) : Forest α → Forest α
  | nil => nil
  | cons s vs below rest =>
    plant s ⟨expunge v vs, purge v below⟩ (purge v rest)

/-- How many stored values are equal to `v`. -/
def occurrences [BEq α] (v : α) : Forest α → Nat
  | nil => 0
  | cons _ vs below rest => vs.countP (· == v) + occurrences v below + occurrences v rest

/-- The number of stored values. -/
def size : Forest α → Nat
  | nil => 0
  | cons _ vs below rest => vs.length + size below + size rest

def nodeCount : Forest α → Nat
  | nil => 0
  | cons _ _ below rest => 1 + nodeCount below + nodeCount rest

/-- The segments of the sibling trees. -/
def segments : Forest α → List String
  | nil => []
  | cons s _ _ rest => s :: segments rest

/-- All values, a node before what is below it. -/
def values : Forest α → List α
  | nil => []
  | cons _ vs below rest => vs ++ (values below ++ values rest)

/-- The first of `values`, found without collecting them. -/
def firstValue? : Forest α → Option α
  | nil => none
  | cons _ vs below rest => vs.head? <|> (firstValue? below <|> firstValue? rest)

/-- What is seen at the top nodes, one after the other. -/
def flatMap (see : Node α → List β) : Forest α → List β
  | nil => []
  | cons _ vs below rest => see ⟨vs, below⟩ ++ flatMap see rest

/-- The first thing seen at a top node. -/
def findSome? (see : Node α → Option β) : Forest α → Option β
  | nil => none
  | cons _ vs below rest => see ⟨vs, below⟩ <|> findSome? see rest

/-- Some node has two children. -/
def isForked : Forest α → Bool
  | nil => false
  | cons _ _ below nil => isForked below
  | cons _ _ _ (cons ..) => true

@[simp] theorem child?_nil (segment : String) : (nil : Forest α).child? segment = none := rfl

@[simp] theorem child_nil (segment : String) : (nil : Forest α).child segment = .empty := rfl

theorem child?_cons (segment s : String) (vs : List α) (below rest : Forest α) :
    (cons s vs below rest).child? segment =
      if s = segment then some ⟨vs, below⟩ else rest.child? segment := rfl

theorem child_cons_self (s : String) (vs : List α) (below rest : Forest α) :
    (cons s vs below rest).child s = ⟨vs, below⟩ := by
  simp [child, child?_cons]

theorem child_cons_of_ne {segment s : String} (h : s ≠ segment) (vs : List α) (below rest : Forest α) :
    (cons s vs below rest).child segment = rest.child segment := by
  rw [child, child?_cons, if_neg h, child]

theorem child?_plant_of_ne {segment s : String} (h : s ≠ segment) (n : Node α) (rest : Forest α) :
    (plant s n rest).child? segment = rest.child? segment := by
  unfold plant
  split <;> simp [child?_cons, h]

/-- Replacing one child leaves the others alone. -/
theorem child?_replace_of_ne {segment s : String} (h : s ≠ segment) (n : Node α) (f : Forest α) :
    (f.replace s n).child? segment = f.child? segment := by
  induction f with
  | nil => rw [replace, child?_cons, if_neg h]
  | cons t vs below rest _ ih =>
    unfold replace
    split
    · next ht => rw [child?_cons, child?_cons, if_neg h, if_neg (ht ▸ h)]
    · split
      · rw [child?_cons, if_neg h]
      · rw [child?_cons, child?_cons, ih]

theorem child?_replace_self (segment : String) (n : Node α) (f : Forest α) :
    (f.replace segment n).child? segment = some n := by
  induction f with
  | nil => rw [replace, child?_cons, if_pos rfl]
  | cons t vs below rest _ ih =>
    unfold replace
    split
    · rw [child?_cons, if_pos rfl]
    · next ht =>
      split
      · rw [child?_cons, if_pos rfl]
      · rw [child?_cons, if_neg ht, ih]

theorem child_replace_of_ne {segment s : String} (h : s ≠ segment) (n : Node α) (f : Forest α) :
    (f.replace s n).child segment = f.child segment := by
  rw [child, child?_replace_of_ne h, child]

theorem child_replace_self (segment : String) (n : Node α) (f : Forest α) :
    (f.replace segment n).child segment = n := by
  rw [child, child?_replace_self, Option.getD_some]

theorem replace_ne_nil (segment : String) (n : Node α) (f : Forest α) : f.replace segment n ≠ nil := by
  cases f with
  | nil => simp [replace]
  | cons t vs below rest =>
    unfold replace
    split
    · simp
    · split <;> simp

/-- Taking one child out leaves the others alone. -/
theorem child?_remove_of_ne {segment s : String} (h : s ≠ segment) (f : Forest α) :
    (f.remove s).child? segment = f.child? segment := by
  induction f with
  | nil => rfl
  | cons t vs below rest _ ih =>
    unfold remove
    split
    · next ht => rw [child?_cons, if_neg (ht ▸ h)]
    · rw [child?_cons, child?_cons, ih]

theorem child_remove_of_ne {segment s : String} (h : s ≠ segment) (f : Forest α) :
    (f.remove s).child segment = f.child segment := by
  rw [child, child?_remove_of_ne h, child]

/-- There is nothing to take out where no child is. -/
theorem remove_of_child?_eq_none {segment : String} {f : Forest α} (h : f.child? segment = none) :
    f.remove segment = f := by
  induction f with
  | nil => rfl
  | cons s vs below rest _ ih =>
    rw [child?_cons] at h
    unfold remove
    split
    · next hs => rw [if_pos hs] at h; cases h
    · next hs => rw [ih (by rwa [if_neg hs] at h)]

theorem firstValue?_eq_head? (f : Forest α) : f.firstValue? = f.values.head? := by
  induction f with
  | nil => rfl
  | cons s vs below rest ihb ihr => cases vs <;> simp [firstValue?, values, ihb, ihr]

theorem findSome?_eq_head? {first : Node α → Option β} {see : Node α → List β}
    (h : ∀ n, first n = (see n).head?) (f : Forest α) : f.findSome? first = (f.flatMap see).head? := by
  induction f with
  | nil => rfl
  | cons s vs below rest _ ih => simp [findSome?, flatMap, h, ih, List.head?_append]

theorem length_values (f : Forest α) : f.values.length = f.size := by
  induction f with
  | nil => rfl
  | cons s vs below rest ihb ihr => simp [values, size, ihb, ihr]; omega

end Forest

end TopicIndex
