import TopicIndex.Values

/-! # Lists without equal values

`Distinct vs`: no value of `vs` equals a later one, whatever a value says of itself. The lists kept
under topics and all answers are distinct. `Among v vs`: `v` or an equal of it is in `vs`, which dropping
equals preserves (`among_eraseDups`). Lists of the same values in another order give answers of the same
classes (`SameClasses.of_perm`). -/

namespace TopicIndex

universe u v

variable {α : Type u} [BEq α]

def Distinct (vs : List α) : Prop := vs.Pairwise fun a b => (a == b) = false

/-- `v` is in the list up to equality. -/
def Among (v : α) (vs : List α) : Prop := ∃ w ∈ vs, w = v ∨ (w == v) = true

/-- The recursion of `List.eraseDups`: the equals of the first value are gone from the rest. -/
theorem eraseDups_induction {P : List α → Prop} (nil : P [])
    (cons : ∀ a vs, P (vs.filter fun b => !b == a) → P (a :: vs)) (vs : List α) : P vs := by
  generalize hn : vs.length = n
  induction n using Nat.strongRecOn generalizing vs with
  | ind n ih =>
    cases vs with
    | nil => exact nil
    | cons a vs =>
      have hlt : (vs.filter fun b => !b == a).length < n := by
        have := List.length_filter_le (fun b => !b == a) vs
        simp only [List.length_cons] at hn; omega
      exact cons a vs (ih _ hlt _ rfl)

theorem mem_of_mem_eraseDups {v : α} {vs : List α} (h : v ∈ vs.eraseDups) : v ∈ vs := by
  induction vs using eraseDups_induction with
  | nil => exact h
  | cons a vs ih =>
    rw [List.eraseDups_cons] at h
    rcases List.mem_cons.mp h with rfl | h
    · exact List.mem_cons_self
    · exact List.mem_cons_of_mem _ (List.mem_filter.mp (ih h)).1

/-- The first value is no equal of an earlier one. -/
theorem head?_eraseDups (vs : List α) : vs.eraseDups.head? = vs.head? := by
  cases vs with
  | nil => rfl
  | cons a vs => rw [List.eraseDups_cons, List.head?_cons, List.head?_cons]

theorem eraseDups_eq_nil {vs : List α} : vs.eraseDups = [] ↔ vs = [] := by
  rw [← List.head?_eq_none_iff, head?_eraseDups, List.head?_eq_none_iff]

theorem among_of_mem {v : α} {vs : List α} (h : v ∈ vs) : Among v vs := ⟨v, h, .inl rfl⟩

theorem among_flatMap {β : Type v} {v : α} {see : β → List α} {bs : List β} :
    Among v (bs.flatMap see) ↔ ∃ b ∈ bs, Among v (see b) := by
  constructor
  · rintro ⟨w, hw, h⟩
    obtain ⟨b, hb, hw⟩ := List.mem_flatMap.mp hw
    exact ⟨b, hb, w, hw, h⟩
  · rintro ⟨b, hb, w, hw, h⟩
    exact ⟨w, List.mem_flatMap.mpr ⟨b, hb, hw⟩, h⟩

theorem among_iff_exists_beq {v : α} {vs : List α} (hv : (v == v) = true) :
    Among v vs ↔ ∃ w ∈ vs, (w == v) = true := by
  have hclass : ∀ w : α, (w = v ∨ (w == v) = true) ↔ (w == v) = true := by
    intro w
    refine or_iff_right_of_imp ?_
    rintro rfl
    exact hv
  simp only [Among, hclass]

theorem among_perm {v : α} {xs ys : List α} (h : xs.Perm ys) : Among v xs ↔ Among v ys := by
  simp only [Among, h.mem_iff]

theorem Among.ne_nil {v : α} {vs : List α} (h : Among v vs) : vs ≠ [] := by
  obtain ⟨w, hw, -⟩ := h
  exact List.ne_nil_of_mem hw

namespace Distinct

variable {v : α} {vs : List α}

theorem adjoin (h : Distinct vs) (v : α) : Distinct (adjoin v vs) := by
  unfold TopicIndex.adjoin
  split
  · exact h
  · next hv =>
    have hvs : ∀ a ∈ vs, (a == v) = false := by simpa using hv
    exact List.pairwise_append.mpr ⟨h, List.pairwise_singleton _ _, fun a ha b hb => by
      rw [List.mem_singleton.mp hb]; exact hvs a ha⟩

theorem expunge (h : Distinct vs) (v : α) : Distinct (expunge v vs) := h.filter _

/-- Where equality is symmetric, values at different positions are not equal. -/
theorem beq_getElem (h : Distinct vs) (hsymm : ∀ a b : α, (a == b) = true → (b == a) = true) {i j : Nat}
    (hi : i < vs.length) (hj : j < vs.length) (hij : i ≠ j) : (vs[i] == vs[j]) = false := by
  have hlt := List.pairwise_iff_getElem.mp h
  rcases Nat.lt_or_gt_of_ne hij with hij | hij
  · exact hlt i j hi hj hij
  · refine Bool.eq_false_iff.mpr fun hb => ?_
    have hback : (vs[j] == vs[i]) = true := hsymm _ _ hb
    rw [hlt j i hj hi hij] at hback; cases hback

variable [PartialEquivBEq α]

theorem countP_eq_one (h : Distinct vs) {w : α} (hw : w ∈ vs) (hv : (w == v) = true) :
    vs.countP (· == v) = 1 := by
  induction vs with
  | nil => cases hw
  | cons a vs ih =>
    obtain ⟨ha, h⟩ := List.pairwise_cons.mp h
    by_cases hav : (a == v) = true
    · have hnone : vs.countP (· == v) = 0 := by
        refine List.countP_eq_zero.mpr fun b hb hbv => ?_
        have hab : (a == b) = true := BEq.trans hav (BEq.symm hbv)
        rw [ha b hb] at hab; cases hab
      rw [List.countP_cons, if_pos hav, hnone]
    · rcases List.mem_cons.mp hw with rfl | hw
      · exact absurd hv hav
      · rw [List.countP_cons, if_neg hav, ih h hw]

/-- Of each list at most one value is an equal of `v`. -/
theorem countP_flatMap {β : Type v} {see : β → List α} {bs : List β} (h : ∀ b ∈ bs, Distinct (see b))
    (v : α) : (bs.flatMap see).countP (· == v) = (bs.filter fun b => (see b).any (· == v)).length := by
  induction bs with
  | nil => rfl
  | cons b bs ih =>
    obtain ⟨hb, hbs⟩ := List.forall_mem_cons.mp h
    rw [List.flatMap_cons, List.countP_append, ih hbs]
    by_cases hany : (see b).any (· == v) = true
    · obtain ⟨w, hw, hwv⟩ := List.any_eq_true.mp hany
      rw [List.filter_cons, if_pos hany, hb.countP_eq_one hw hwv, List.length_cons, Nat.add_comm]
    · have hnone : (see b).countP (· == v) = 0 := by
        refine List.countP_eq_zero.mpr fun w hw hwv => hany ?_
        exact List.any_eq_true.mpr ⟨w, hw, hwv⟩
      rw [List.filter_cons, if_neg hany, hnone, Nat.zero_add]

end Distinct

/-- Two answers that hold the same values, up to equality and order. -/
structure SameClasses (xs ys : List α) : Prop where
  among : ∀ v, Among v xs ↔ Among v ys
  /-- A value that equals itself has one equal in each answer, or none in either. -/
  once : ∀ v, (v == v) = true → Among v xs → xs.countP (· == v) = 1 ∧ ys.countP (· == v) = 1
  /-- A value that differs from itself is in both as often. -/
  odd : (xs.filter fun v => !(v == v)).Perm (ys.filter fun v => !(v == v))

variable [PartialEquivBEq α]

theorem distinct_eraseDups (vs : List α) : Distinct vs.eraseDups := by
  induction vs using eraseDups_induction with
  | nil => exact .nil
  | cons a vs ih =>
    rw [List.eraseDups_cons]
    refine List.pairwise_cons.mpr ⟨fun b hb => ?_, ih⟩
    have hba : (b == a) = false := by simpa using (List.mem_filter.mp (mem_of_mem_eraseDups hb)).2
    rw [BEq.comm]; exact hba

theorem among_eraseDups {v : α} {vs : List α} : Among v vs.eraseDups ↔ Among v vs := by
  constructor
  · rintro ⟨w, hw, h⟩
    exact ⟨w, mem_of_mem_eraseDups hw, h⟩
  · rintro ⟨w, hw, h⟩
    -- the first equal of `w` is kept, and it is an equal of `v` as well
    have hkeep : ∃ u ∈ vs.eraseDups, u = w ∨ (u == w) = true := by
      clear h
      induction vs using eraseDups_induction with
      | nil => cases hw
      | cons a vs ih =>
        rw [List.eraseDups_cons]
        rcases List.mem_cons.mp hw with rfl | hw
        · exact ⟨w, List.mem_cons_self, .inl rfl⟩
        · by_cases hwa : (w == a) = true
          · exact ⟨a, List.mem_cons_self, .inr (BEq.symm hwa)⟩
          · obtain ⟨u, hu, huw⟩ := ih (List.mem_filter.mpr ⟨hw, by simp [hwa]⟩)
            exact ⟨u, List.mem_cons_of_mem _ hu, huw⟩
    obtain ⟨u, hu, rfl | huw⟩ := hkeep
    · exact ⟨u, hu, h⟩
    · rcases h with rfl | h
      · exact ⟨u, hu, .inr huw⟩
      · exact ⟨u, hu, .inr (BEq.trans huw h)⟩

theorem among_adjoin {v w : α} {vs : List α} :
    Among v (adjoin w vs) ↔ Among v vs ∨ w = v ∨ (w == v) = true := by
  unfold adjoin
  split
  · next hw =>
    -- an equal of `w` is there, and what `w` equals it equals as well
    obtain ⟨x, hx, hxw⟩ := List.any_eq_true.mp hw
    refine ⟨.inl, fun h => h.elim id ?_⟩
    rintro (rfl | hwv)
    · exact ⟨x, hx, .inr hxw⟩
    · exact ⟨x, hx, .inr (BEq.trans hxw hwv)⟩
  · simp only [Among, List.mem_append, List.mem_singleton, or_and_right, exists_or, exists_eq_left]

theorem Among.countP_eraseDups {v : α} {vs : List α} (h : Among v vs) (hv : (v == v) = true) :
    vs.eraseDups.countP (· == v) = 1 := by
  obtain ⟨w, hw, hwv⟩ := among_eraseDups.mpr h
  refine (distinct_eraseDups vs).countP_eq_one hw ?_
  rcases hwv with rfl | hwv
  · exact hv
  · exact hwv

/-- A value that differs from itself equals no other either, so none of its copies is dropped. -/
theorem filter_eraseDups (vs : List α) :
    vs.eraseDups.filter (fun v => !(v == v)) = vs.filter fun v => !(v == v) := by
  induction vs using eraseDups_induction with
  | nil => rfl
  | cons a vs ih =>
    have hkeep : (vs.filter fun b => !b == a).filter (fun v => !(v == v)) =
        vs.filter fun v => !(v == v) := by
      rw [List.filter_filter]
      refine List.filter_congr fun b _ => ?_
      by_cases hba : (b == a) = true
      · have hbb : (b == b) = true := BEq.trans hba (BEq.symm hba)
        simp [hbb]
      · simp [hba]
    rw [List.eraseDups_cons, List.filter_cons, List.filter_cons, ih, hkeep]

theorem SameClasses.of_perm {xs ys : List α} (h : xs.Perm ys) :
    SameClasses xs.eraseDups ys.eraseDups where
  among v := by rw [among_eraseDups, among_eraseDups, among_perm h]
  once v hv hxs := by
    rw [among_eraseDups] at hxs
    exact ⟨hxs.countP_eraseDups hv, ((among_perm h).mp hxs).countP_eraseDups hv⟩
  odd := by
    rw [filter_eraseDups, filter_eraseDups]
    exact h.filter _

end TopicIndex
