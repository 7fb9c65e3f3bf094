/-!
# Lists of values under a partial equality

The equality test may fail for a value and itself. `adjoin` appends a value that has no equal in
the list, `expunge` removes the equals of a value; both keep the order of the others.
-/

namespace TopicIndex

universe u

variable {α : Type u} [BEq α]

def adjoin (v : α) (vs : List α) : List α :=
  if vs.any (· == v) then vs else vs ++ [v]

def expunge (v : α) (vs : List α) : List α :=
  vs.filter fun x => !(x == v)

theorem adjoin_ne_nil (v : α) (vs : List α) : adjoin v vs ≠ [] := by
  unfold adjoin
  split
  · rintro rfl
    next h => exact absurd h (by simp)
  · simp

@[simp] theorem expunge_nil (v : α) : expunge v [] = [] := rfl

theorem mem_expunge {v x : α} {vs : List α} : x ∈ expunge v vs ↔ x ∈ vs ∧ (x == v) = false := by
  simp [expunge]

theorem length_expunge (v : α) (vs : List α) :
    (expunge v vs).length + vs.countP (· == v) = vs.length := by
  induction vs with
  | nil => rfl
  | cons x xs ih =>
    cases h : x == v <;> simp_all [expunge] <;> omega

end TopicIndex
