import Mathlib.Data.List.Flatten
import Mathlib.Data.List.Perm.Subperm
import TopicIndex.Proofs.Entrywise

/-! # How often a search comes to an entry

A single-level segment of a query goes to every child, the one of the multi-level token included, and
takes the values of that child besides. So a search comes twice to a pattern that ends in the multi-level
token where the query has a single-level one that ends it or stands before the first multi-level one
(`Dialect.Twice`, `Dialect.Twice.iff_exists_append`), and to no other pattern more than once
(`Node.count_met`). Dropping equals hides this from values that equal themselves: then no entry is in the
answer twice (`Index.overlapping_repeats`). -/

namespace TopicIndex

universe u v

variable {α : Type u}

namespace Dialect

variable {d : Dialect} {s x : String} {p q : List String}

/-- A stored pattern that looking for overlaps with a query comes to twice, compared from the left. -/
inductive Twice (d : Dialect) : List String → List String → Prop
  | last : Twice d [d.multi] [d.single]
  | beforeMulti {s : String} (q : List String) : d.read s = .multi → Twice d [d.multi] (d.single :: s :: q)
  | literal {s : String} {p q : List String} :
      (d.read s).isWildcard = false → Twice d p q → Twice d (s :: p) (s :: q)
  | single {s : String} {p q : List String} :
      (d.read s).isWildcard = false → Twice d p q → Twice d (d.single :: p) (s :: q)
  | each (s : String) {p q : List String} : Twice d p q → Twice d (s :: p) (d.single :: q)

/-- What is left of a query behind a single-level segment when it comes to the multi-level child a second
time: nothing, or a multi-level segment first. -/
def Lingers (d : Dialect) (q : List String) : Prop :=
  q = [] ∨ ∃ s r, q = s :: r ∧ d.read s = .multi

/-- Unless the pattern ends here or the query has a multi-level segment, one segment is compared. -/
theorem Meets.cons_cases (h : d.Meets (s :: p) (x :: q)) (hp : p ≠ []) (hx : d.read x ≠ .multi) :
    (x = d.single ∨ (d.read x).isWildcard = false ∧ (s = x ∨ s = d.single)) ∧ d.Meets p q := by
  cases h with
  | absorb => exact absurd rfl hp
  | literal hs h => exact ⟨.inr ⟨hs, .inl rfl⟩, h⟩
  | single hs h => exact ⟨.inr ⟨hs, .inr rfl⟩, h⟩
  | each _ h => exact ⟨.inl rfl, h⟩
  | all _ _ hs => exact absurd hs hx

namespace Twice

theorem not_nil_left (d : Dialect) (q : List String) : ¬ d.Twice [] q := nofun

theorem not_nil_right (d : Dialect) (p : List String) : ¬ d.Twice p [] := nofun

theorem cons_cases (h : d.Twice (s :: p) (x :: q)) :
    (x = d.single ∧ s = d.multi ∧ p = [] ∧ d.Lingers q) ∨
    ((x = d.single ∨ (d.read x).isWildcard = false ∧ (s = x ∨ s = d.single)) ∧ d.Twice p q) := by
  generalize hp : s :: p = sp at h
  generalize hq : x :: q = xq at h
  cases h <;> obtain ⟨rfl, rfl⟩ := List.cons.inj hp <;> obtain ⟨rfl, rfl⟩ := List.cons.inj hq
  case last => exact .inl ⟨rfl, rfl, rfl, .inl rfl⟩
  case beforeMulti r hy => exact .inl ⟨rfl, rfl, rfl, .inr ⟨_, r, rfl, hy⟩⟩
  case literal hs h => exact .inr ⟨.inr ⟨hs, .inl rfl⟩, h⟩
  case single hs h => exact .inr ⟨.inr ⟨hs, .inr rfl⟩, h⟩
  case each h => exact .inr ⟨.inl rfl, h⟩

theorem of_lingers (h : d.Lingers q) : d.Twice [d.multi] (d.single :: q) := by
  rcases h with rfl | ⟨s, r, rfl, hs⟩
  exacts [.last, .beforeMulti r hs]

theorem cons_literal_iff (hx : (d.read x).isWildcard = false) :
    d.Twice (s :: p) (x :: q) ↔ (s = x ∨ s = d.single) ∧ d.Twice p q := by
  constructor
  · intro h
    rcases h.cons_cases with ⟨rfl, -⟩ | ⟨rfl | ⟨-, hs⟩, h⟩
    · rw [read_single] at hx; cases hx
    · rw [read_single] at hx; cases hx
    · exact ⟨hs, h⟩
  · rintro ⟨rfl | rfl, h⟩
    exacts [.literal hx h, .single hx h]

theorem cons_single_iff : d.Twice (s :: p) (d.single :: q) ↔
    (s = d.multi ∧ p = [] ∧ d.Lingers q) ∨ d.Twice p q := by
  constructor
  · intro h
    rcases h.cons_cases with ⟨-, h⟩ | ⟨-, h⟩
    exacts [.inl h, .inr h]
  · rintro (⟨rfl, rfl, h⟩ | h)
    exacts [.of_lingers h, .each s h]

theorem not_of_multi (hx : d.read x = .multi) : ¬ d.Twice p (x :: q) := by
  intro h
  cases p with
  | nil => cases h
  | cons s p =>
    rcases h.cons_cases with ⟨rfl, -⟩ | ⟨rfl | ⟨hlit, -⟩, -⟩
    · rw [read_single] at hx; cases hx
    · rw [read_single] at hx; cases hx
    · rw [hx] at hlit; cases hlit

theorem meets (h : d.Twice p q) : d.Meets p q := by
  induction h with
  | last | beforeMulti => exact .absorb _
  | literal hs _ ih => exact .literal hs ih
  | single hs _ ih => exact .single hs ih
  | each s _ ih => exact .each s ih

/-- The pattern ends in the multi-level token, opposite a single-level segment of the query which is the
end of it or stands before the first multi-level one. -/
theorem exists_append (hd : d.single ≠ d.multi) (h : d.Twice p q) : ∃ a b r, p = a ++ [d.multi] ∧
    q = b ++ d.single :: r ∧ a.length = b.length ∧ d.multi ∉ b ∧ d.Lingers r := by
  have hcons : ∀ {s x : String} {p q : List String}, x ≠ d.multi →
      (∃ a b r, p = a ++ [d.multi] ∧ q = b ++ d.single :: r ∧ a.length = b.length ∧ d.multi ∉ b ∧
        d.Lingers r) →
      ∃ a b r, s :: p = a ++ [d.multi] ∧ x :: q = b ++ d.single :: r ∧ a.length = b.length ∧
        d.multi ∉ b ∧ d.Lingers r := by
    rintro s x p q hx ⟨a, b, r, rfl, rfl, hlen, hb, hr⟩
    refine ⟨s :: a, x :: b, r, rfl, rfl, congrArg Nat.succ hlen, ?_, hr⟩
    exact fun hm => (List.mem_cons.mp hm).elim (Ne.symm hx) hb
  induction h with
  | last => exact ⟨[], [], [], rfl, rfl, rfl, List.not_mem_nil, .inl rfl⟩
  | beforeMulti q hs => exact ⟨[], [], _, rfl, rfl, rfl, List.not_mem_nil, .inr ⟨_, q, rfl, hs⟩⟩
  | literal hs _ ih | single hs _ ih => exact hcons (ne_multi_of_isWildcard hs) ih
  | each _ _ ih => exact hcons hd ih

/-- What meets a query of this shape is come to twice: no multi-level segment of the query takes the
pattern before the single-level one is reached. -/
theorem of_append {a b r : List String} (hd : d.single ≠ d.multi)
    (h : d.Meets (a ++ [d.multi]) (b ++ d.single :: r)) (hlen : a.length = b.length) (hb : d.multi ∉ b)
    (hr : d.Lingers r) : d.Twice (a ++ [d.multi]) (b ++ d.single :: r) := by
  induction b generalizing a with
  | nil =>
    obtain rfl := List.length_eq_zero_iff.mp hlen
    exact of_lingers hr
  | cons x b ih =>
    obtain ⟨s, a, rfl⟩ := List.exists_cons_of_length_eq_add_one hlen
    obtain ⟨hx, hb⟩ := not_or.mp (mt List.mem_cons.mpr hb)
    have hmulti : d.read x ≠ .multi := fun hm => hx ((read_eq_multi_iff hd).mp hm).symm
    obtain ⟨hstep, h⟩ := Meets.cons_cases h (List.append_ne_nil_of_right_ne_nil a (by simp)) hmulti
    have htwice := ih h (Nat.succ.inj hlen) hb
    rcases hstep with rfl | ⟨hlit, rfl | rfl⟩
    exacts [.each s htwice, .literal hlit htwice, .single hlit htwice]

theorem iff_exists_append (hd : d.single ≠ d.multi) : d.Twice p q ↔ d.Meets p q ∧
    ∃ a b r, p = a ++ [d.multi] ∧ q = b ++ d.single :: r ∧ a.length = b.length ∧ d.multi ∉ b ∧
      d.Lingers r := by
  refine ⟨fun h => ⟨h.meets, h.exists_append hd⟩, ?_⟩
  rintro ⟨h, a, b, r, rfl, rfl, hlen, hb, hr⟩
  exact of_append hd h hlen hb hr

end Twice

end Dialect

theorem count_map_cons {β : Type v} [DecidableEq β] (a b : β) (p : List β) (ps : List (List β)) :
    (ps.map (b :: ·)).count (a :: p) = if a = b then ps.count p else 0 := by
  induction ps with
  | nil => simp
  | cons q ps ih =>
    rw [List.map_cons, List.count_cons, List.count_cons, ih]
    by_cases hab : a = b
    · subst hab; simp
    · simp [hab, Ne.symm hab]

/-- Of lists under distinct heads only the one under `a` has paths that begin with `a`. -/
theorem count_flatMap_cons {β : Type v} [DecidableEq β] {bs : List β} (hbs : bs.Nodup) {a : β}
    (ha : a ∈ bs) (ps : β → List (List β)) (p : List β) :
    (bs.flatMap fun b => (ps b).map (b :: ·)).count (a :: p) = (ps a).count p := by
  induction bs with
  | nil => cases ha
  | cons b bs ih =>
    obtain ⟨hb, hbs⟩ := List.nodup_cons.mp hbs
    rw [List.flatMap_cons, List.count_append, count_map_cons]
    rcases List.mem_cons.mp ha with rfl | ha
    · have hrest : (bs.flatMap fun b => (ps b).map (b :: ·)).count (a :: p) = 0 := by
        rw [List.count_eq_zero, List.mem_flatMap]
        rintro ⟨b, hb', hp⟩
        obtain ⟨q, -, hq⟩ := List.mem_map.mp hp
        exact hb ((List.cons.inj hq).1 ▸ hb')
      rw [if_pos rfl, hrest, Nat.add_zero]
    · have hab : a ≠ b := fun h => hb (h ▸ ha)
      rw [if_neg hab, ih hbs ha, Nat.zero_add]

namespace Forest

theorem Ordered.nodup_segments {f : Forest α} (hf : f.Ordered) : f.segments.Nodup := by
  induction hf with
  | nil => exact List.nodup_nil
  | cons hlt _ _ _ ih => exact List.nodup_cons.mpr ⟨fun h => String.lt_irrefl _ (hlt _ h), ih⟩

end Forest

namespace Node

variable {d : Dialect} {n : Node α} {s x : String} {p q : List String}

theorem mem_segments_of_valuesAt (hp : n.valuesAt (s :: p) ≠ []) : s ∈ n.children.segments := by
  by_contra hs
  refine hp (valuesAt_eq_nil ?_)
  rw [find?, child?, Forest.child?_eq_none hs]; rfl

theorem count_multi : [[d.multi]].count (s :: p) = if s = d.multi ∧ p = [] then 1 else 0 := by
  rw [List.count_cons, List.count_nil, Nat.zero_add]
  refine if_congr ?_ rfl rfl
  rw [beq_iff_eq, List.cons.injEq, eq_comm, eq_comm (a := [])]

theorem count_met_literal (hx : (d.read x).isWildcard = false) : (n.met d (x :: q)).count (s :: p) =
    (if s = x then ((n.child x).met d q).count p else 0) +
      ((if s = d.single then ((n.child d.single).met d q).count p else 0) +
        if s = d.multi ∧ p = [] then 1 else 0) := by
  rw [met, Dialect.read_eq_literal hx]
  simp only [List.count_append, count_map_cons, count_multi]

theorem count_met_single (hn : n.children.Ordered) (hs : s ∈ n.children.segments) :
    (n.met d (d.single :: q)).count (s :: p) =
      ((n.child s).met d q).count p + if s = d.multi ∧ p = [] then 1 else 0 := by
  rw [met, Dialect.read_single]
  simp only [List.count_append, count_multi, count_flatMap_cons hn.nodup_segments hs]

theorem count_met_multi (hn : n.children.Ordered) (hx : d.read x = .multi) (hp : n.valuesAt p ≠ []) :
    (n.met d (x :: q)).count p = 1 := by
  rw [met, hx]
  have hnodup : ([] :: n.children.paths).Nodup :=
    List.nodup_cons.mpr ⟨Forest.nil_not_mem_paths _, Forest.nodup_paths hn⟩
  exact List.count_eq_one_of_mem hnodup (mem_paths_of_valuesAt hn hp)

/-- What is stored at a node itself is come to where the query ends or takes all that is left. -/
theorem count_met_nil (hn : n.children.Ordered) (hp : n.values ≠ []) :
    (d.Lingers q → (n.met d q).count [] = 1) ∧ (¬ d.Lingers q → (n.met d q).count [] = 0) := by
  cases q with
  | nil => exact ⟨fun _ => by simp [met], fun h => absurd (.inl rfl) h⟩
  | cons x q =>
    have hlingers : d.Lingers (x :: q) ↔ d.read x = .multi := by
      simp [Dialect.Lingers]
    rw [hlingers]
    refine ⟨fun hx => count_met_multi hn hx hp, fun hx => ?_⟩
    rw [List.count_eq_zero, met]
    cases hs : d.read x with
    | literal | single => simp
    | multi => exact absurd hs hx

/-- No pattern is come to more than twice, and those in `Dialect.Twice` are. -/
theorem count_met (hd : d.single ≠ d.multi) (hn : n.children.Ordered) (hp : n.valuesAt p ≠ [])
    (hm : d.isMisplaced p = false) :
    (n.met d q).count p ≤ 2 ∧ ((n.met d q).count p = 2 ↔ d.Twice p q) := by
  have hfew : ∀ {k : Nat} {P : Prop}, k ≤ 1 → ¬ P → k ≤ 2 ∧ (k = 2 ↔ P) := by
    intro k P hk hP
    exact ⟨by omega, by omega, fun h => absurd h hP⟩
  induction q generalizing n p with
  | nil =>
    have hnodup : (n.met d []).Nodup := by simp [met]
    exact hfew (List.nodup_iff_count_le_one.mp hnodup p) (Dialect.Twice.not_nil_right d p)
  | cons x q ih =>
    cases p with
    | nil =>
      have hcount : (n.met d (x :: q)).count [] ≤ 1 := by
        have hnil := count_met_nil (d := d) (q := x :: q) hn hp
        by_cases h : d.Lingers (x :: q)
        · exact Nat.le_of_eq (hnil.1 h)
        · exact Nat.le_of_lt (by rw [hnil.2 h]; decide)
      exact hfew hcount (Dialect.Twice.not_nil_left d _)
    | cons s p =>
      have hbelow : (n.child s).valuesAt p ≠ [] := by rwa [valuesAt_cons] at hp
      have hrest : s ≠ d.multi → d.isMisplaced p = false := fun hs => by
        rwa [Dialect.isMisplaced_cons_of_ne hs] at hm
      have hend : s = d.multi → p = [] := by
        rintro rfl
        exact Dialect.eq_nil_of_not_misplaced hm
      cases hx : d.read x with
      | literal text =>
        have hlit : (d.read x).isWildcard = false := by rw [hx]; rfl
        have hxm : x ≠ d.multi := Dialect.ne_multi_of_isWildcard hlit
        have hxs : x ≠ d.single := by
          rintro rfl
          rw [Dialect.read_single] at hx; cases hx
        rw [count_met_literal hlit, Dialect.Twice.cons_literal_iff hlit]
        by_cases hsx : s = x
        · subst hsx
          simpa [hxs, hxm] using ih (ordered_child hn s) hbelow (hrest hxm)
        by_cases hss : s = d.single
        · subst hss
          simpa [hsx, hd] using ih (ordered_child hn _) hbelow (hrest hd)
        · simp only [hsx, hss, if_false, false_or, false_and]
          exact hfew (by split <;> omega) not_false
      | single =>
        obtain rfl : x = d.single := Dialect.read_eq_single_iff.mp hx
        rw [count_met_single hn (mem_segments_of_valuesAt hp), Dialect.Twice.cons_single_iff]
        by_cases hsm : s = d.multi
        · obtain rfl := hend hsm
          subst hsm
          -- the values of the multi-level child are taken once, and the query goes on at that child
          have hnil := count_met_nil (d := d) (q := q) (ordered_child hn d.multi) hbelow
          have hnone : ¬ d.Twice [] q := Dialect.Twice.not_nil_left d q
          by_cases h : d.Lingers q
          · simp [hnil.1 h, h]
          · simp [hnil.2 h, h, hnone]
        · simpa [hsm] using ih (ordered_child hn s) hbelow (hrest hsm)
      | multi => exact hfew (Nat.le_of_eq (count_met_multi hn hx hp)) (Dialect.Twice.not_of_multi hx)

end Node

section Subperm

variable {β : Type v} {bs cs : List β} {see : β → List α}

theorem subperm_flatMap (h : bs.Subperm cs) (see : β → List α) :
    (bs.flatMap see).Subperm (cs.flatMap see) := by
  obtain ⟨ds, hperm, hsub⟩ := h
  exact ⟨ds.flatMap see, hperm.flatMap_right see, hsub.flatMap see⟩

variable [BEq α]

theorem Distinct.nodup_filter {vs : List α} (h : Distinct vs) : (vs.filter fun v => v == v).Nodup := by
  refine List.Pairwise.imp_of_mem ?_ (List.Pairwise.filter _ h)
  rintro a b ha - hab rfl
  rw [(List.mem_filter.mp ha).2] at hab; cases hab

variable [PartialEquivBEq α] [BEq β] [LawfulBEq β]

/-- What is seen at some places, equal values once, is part of what is seen at all, unless a value that
differs from itself is seen again and again at one place. -/
theorem subperm_eraseDups (hcs : ∀ b ∈ bs, see b ≠ [] → b ∈ cs)
    (hbs : ∀ b, ∀ v ∈ see b, (v == v) = false → bs.count b ≤ 1) :
    (bs.flatMap see).eraseDups.Subperm (cs.flatMap see) := by
  have heven : ((bs.flatMap see).eraseDups.filter fun v => v == v).Subperm
      ((cs.flatMap see).filter fun v => v == v) := by
    refine (distinct_eraseDups _).nodup_filter.subperm fun v hv => ?_
    obtain ⟨hv, hvv⟩ := List.mem_filter.mp hv
    obtain ⟨b, hb, hv⟩ := List.mem_flatMap.mp (mem_of_mem_eraseDups hv)
    exact List.mem_filter.mpr
      ⟨List.mem_flatMap.mpr ⟨b, hcs b hb (List.ne_nil_of_mem hv), hv⟩, hvv⟩
  have hodd : ((bs.flatMap see).eraseDups.filter fun v => !(v == v)).Subperm
      ((cs.flatMap see).filter fun v => !(v == v)) := by
    set odd : β → List α := fun b => (see b).filter fun v => !(v == v) with hodd
    rw [filter_eraseDups, List.filter_flatMap, List.filter_flatMap, ← flatMap_filter_isEmpty odd bs]
    have hplace : ∀ b ∈ bs.filter fun b => !(odd b).isEmpty, ∃ v ∈ see b, (v == v) = false := by
      intro b hb
      obtain ⟨v, hv⟩ := List.exists_mem_of_ne_nil (odd b) (by simpa using (List.mem_filter.mp hb).2)
      exact ⟨v, by simpa [hodd] using hv⟩
    refine subperm_flatMap (List.Nodup.subperm ?_ fun b hb => ?_) odd
    · refine List.nodup_iff_count_le_one.mpr fun b => ?_
      by_cases hb : b ∈ bs.filter fun b => !(odd b).isEmpty
      · obtain ⟨v, hv, hvv⟩ := hplace b hb
        exact Nat.le_trans (List.filter_sublist.count_le b) (hbs b v hv hvv)
      · rw [List.count_eq_zero_of_not_mem hb]; exact Nat.zero_le 1
    · obtain ⟨v, hv, -⟩ := hplace b hb
      exact hcs b (List.mem_filter.mp hb).1 (List.ne_nil_of_mem hv)
  have hsplit : ∀ vs : List α,
      ((vs.filter fun v => v == v) ++ vs.filter fun v => !(v == v)).Perm vs :=
    List.filter_append_perm _
  exact (hsplit _).symm.subperm.trans ((heven.append hodd).trans (hsplit _).subperm)

end Subperm

/-- A measurement that may be missing. Nothing equals a missing one, not even another. -/
inductive Measured where
  | value (n : Nat)
  | missing

namespace Measured

instance : BEq Measured where
  beq
    | value m, value n => m == n
    | _, _ => false

theorem beq_iff {a b : Measured} : (a == b) = true ↔ ∃ n, a = .value n ∧ b = .value n := by
  cases a with
  | missing => exact ⟨nofun, fun ⟨n, h, _⟩ => nomatch h⟩
  | value m =>
    cases b with
    | missing => exact ⟨nofun, fun ⟨n, _, h⟩ => nomatch h⟩
    | value n =>
      have h : (value m == value n) = (m == n) := rfl
      rw [h, beq_iff_eq]
      simp [eq_comm]

instance : PartialEquivBEq Measured where
  symm h := by
    obtain ⟨n, rfl, rfl⟩ := beq_iff.mp h
    exact h
  trans h h' := by
    obtain ⟨n, rfl, rfl⟩ := beq_iff.mp h
    exact h'

end Measured

namespace Index

variable [BEq α] [PartialEquivBEq α]

/-- A search comes to each pattern in question once, or twice exactly where it ends in the multi-level
token and the query lingers there, with no multi-level segment before. Only values that differ from
themselves show it; apart from these an answer holds no entry twice. -/
theorem overlapping_repeats (d : Dialect) (hd : d.single ≠ d.multi) (cs : List (Change α)) (q : String) :
    let t := (empty d .strict : Index α).run cs
    (∃ ps : List (List String), t.overlapping q = (ps.flatMap t.root.valuesAt).eraseDups ∧
      (t.overlapping q).filter (fun v => !(v == v)) =
        (ps.flatMap t.root.valuesAt).filter (fun v => !(v == v)) ∧
      ∀ u, t.valuesAt u ≠ [] → ps.count (d.split u) ≤ 2 ∧
        (ps.count (d.split u) = 2 ↔ d.Twice (d.split u) (d.split q)) ∧
        (0 < ps.count (d.split u) ↔ d.Meets (d.split u) (d.split q))) ∧
    (∀ u, d.Twice (d.split u) (d.split q) ↔ d.Meets (d.split u) (d.split q) ∧
      ∃ a b r, d.split u = a ++ [d.multi] ∧ d.split q = b ++ d.single :: r ∧ a.length = b.length ∧
        d.multi ∉ b ∧ d.Lingers r) ∧
    ((∀ u, d.Twice (d.split u) (d.split q) → ∀ v ∈ t.valuesAt u, (v == v) = true) →
      (t.overlapping q).Subperm t.root.allValues ∧ (t.overlapping q).length ≤ t.size) := by
  intro t
  have ht : t.Sound := sound_run d .strict cs
  have hdialect : t.dialect = d := dialect_run _ cs
  have hpath : ∀ u, t.path u = d.split u := path_run d .strict cs
  have hcount : ∀ u, t.valuesAt u ≠ [] → (t.root.met d (d.split q)).count (d.split u) ≤ 2 ∧
      ((t.root.met d (d.split q)).count (d.split u) = 2 ↔ d.Twice (d.split u) (d.split q)) := by
    intro u hu
    have hvs : t.root.valuesAt (d.split u) ≠ [] := by rwa [← hpath]
    exact Node.count_met hd ht.ordered hvs (isMisplaced_of_valuesAt hu)
  have hover : t.overlapping q = ((t.root.met d (d.split q)).flatMap t.root.valuesAt).eraseDups := by
    rw [overlapping, hpath, hdialect, Node.overlapping_eq_flatMap d ht.ordered]
  refine ⟨⟨_, hover, by rw [hover, filter_eraseDups], fun u hu => ?_⟩,
    fun u => Dialect.Twice.iff_exists_append hd, fun hself => ?_⟩
  · have hvs : t.root.valuesAt (d.split u) ≠ [] := by rwa [← hpath]
    refine ⟨(hcount u hu).1, (hcount u hu).2, ?_⟩
    rw [List.count_pos_iff]
    exact ⟨Node.meets_of_mem_met, fun h => Node.mem_met_of_meets ht.ordered h hvs⟩
  · have hsub : (t.overlapping q).Subperm t.root.allValues := by
      rw [hover, Node.allValues_eq_flatMap ht.ordered]
      refine subperm_eraseDups (fun p _ hp => Node.mem_paths_of_valuesAt ht.ordered hp)
        fun p v hv hvv => ?_
      obtain ⟨u, rfl⟩ := ht.exists_topic (List.ne_nil_of_mem hv)
      rw [hpath]
      obtain ⟨hle, htwice⟩ := hcount u (List.ne_nil_of_mem hv)
      have hne : (t.root.met d (d.split q)).count (d.split u) ≠ 2 := by
        intro h
        rw [hself u (htwice.mp h) v hv] at hvv; cases hvv
      omega
    refine ⟨hsub, ?_⟩
    rw [size, Node.size_eq_length]
    exact hsub.length_le

/-- A missing measurement under `a` is found once, though the value under `#` is come to twice. -/
theorem overlapping_repeats_value :
    let t := (empty .mqtt .strict : Index Measured).run [.insert "#" (.value 1), .insert "a" .missing]
    Dialect.mqtt.single ≠ Dialect.mqtt.multi ∧ Dialect.mqtt.Twice ["#"] ["+"] ∧
      (t.overlapping "+").Subperm t.root.allValues ∧ (t.overlapping "+").length ≤ t.size := by
  intro t
  have hd : Dialect.mqtt.single ≠ Dialect.mqtt.multi := by decide
  have hself : ∀ u, Dialect.mqtt.Twice (Dialect.mqtt.split u) (Dialect.mqtt.split "+") →
      ∀ v ∈ t.valuesAt u, (v == v) = true := by
    intro u hu v hv
    have hnamed : (u, v) ∈ [("#", Measured.value 1), ("a", .missing)] := mem_of_mem_run_insertions _ hv
    simp only [List.mem_cons, Prod.mk.injEq, List.not_mem_nil, or_false] at hnamed
    rcases hnamed with ⟨rfl, rfl⟩ | ⟨rfl, rfl⟩
    · rfl
    · obtain ⟨a, b, r, ha, -⟩ := hu.exists_append hd
      have hsplit : Dialect.mqtt.split "a" = [] ++ ["a"] := by decide
      rw [hsplit] at ha
      exact absurd (List.append_inj_right' ha rfl) (by decide)
  exact ⟨hd, .last, (overlapping_repeats .mqtt hd _ "+").2.2 hself⟩

/-- A missing measurement under `#` is listed twice by a search for `+`, and is counted once. -/
theorem overlapping_repeats_missing :
    let t := (empty .mqtt .strict : Index Measured).run [.insert "#" .missing]
    Dialect.mqtt.single ≠ Dialect.mqtt.multi ∧ t.root.allValues = [.missing] ∧ t.size = 1 ∧
      t.overlapping "+" = [.missing, .missing] ∧ ¬ (t.overlapping "+").Subperm t.root.allValues ∧
      ¬ (t.overlapping "+").length ≤ t.size := by
  intro t
  have hall : t.root.allValues = [.missing] := by rfl
  have hover : t.overlapping "+" = [.missing, .missing] := by rfl
  have hsize : t.size = 1 := by rfl
  refine ⟨by decide, hall, hsize, hover, fun h => ?_, ?_⟩
  · have hlen := h.length_le
    rw [hall, hover] at hlen
    exact absurd hlen (by decide)
  · rw [hover, hsize]; decide

end Index

end TopicIndex
