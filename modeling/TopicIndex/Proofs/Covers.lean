import Mathlib.Data.List.Nodup
import TopicIndex.Proofs.Distinct
import TopicIndex.Proofs.Sound

/-! # Which patterns cover a topic

`Dialect.Covers p path` compares a pattern with a path segment by segment. `Dialect.patterns` lists the
patterns that cover a path, and looking for matches goes through this list and no further: `matching`
collects what is stored at each of them (`Node.matching_eq_flatMap`). Where the tokens differ, the list
ascends in `Dialect.Precedes`, so no pattern is visited twice. -/

namespace TopicIndex

universe u

variable {α : Type u}

namespace Dialect

variable {d : Dialect} {s : String} {p path : List String}

inductive Covers (d : Dialect) : List String → List String → Prop
  | nil : Covers d [] []
  /-- At the end of a pattern the multi-level token takes all that is left. -/
  | multi (path : List String) : Covers d [d.multi] path
  | single (s : String) {p path : List String} : Covers d p path → Covers d (d.single :: p) (s :: path)
  | literal {s : String} {p path : List String} :
      (d.read s).isWildcard = false → Covers d p path → Covers d (s :: p) (s :: path)

/-- The patterns that cover a path: at each segment first the literal, then the wildcards. -/
def patterns (d : Dialect) : List String → List (List String)
  | [] => [[], [d.multi]]
  | s :: path =>
    (if (d.read s).isWildcard then [] else (patterns d path).map (s :: ·)) ++
      ((patterns d path).map (d.single :: ·) ++ [[d.multi]])

/-- Literals come first, the multi-level token last. -/
def rank (d : Dialect) (s : String) : Nat :=
  match d.read s with
  | .literal _ => 0
  | .single => 1
  | .multi => 2

/-- A path precedes those that extend it and those of a higher rank at the first difference. -/
def Precedes (d : Dialect) : List String → List String → Prop :=
  List.Lex fun s t => d.rank s < d.rank t

theorem mem_patterns : p ∈ d.patterns path ↔ d.Covers p path := by
  induction path generalizing p with
  | nil =>
    constructor
    · intro h
      simp only [patterns, List.mem_cons, List.not_mem_nil, or_false] at h
      rcases h with rfl | rfl
      exacts [.nil, .multi []]
    · rintro (_ | _) <;> simp [patterns]
  | cons s path ih =>
    simp only [patterns, List.mem_append, List.mem_map, List.mem_singleton, ih]
    constructor
    · rintro (h | ⟨q, hq, rfl⟩ | rfl)
      · split at h
        · cases h
        · next hs =>
          obtain ⟨q, hq, rfl⟩ := List.mem_map.mp h
          exact .literal (Bool.eq_false_iff.mpr hs) (ih.mp hq)
      · exact .single s hq
      · exact .multi _
    · intro h
      cases h with
      | multi => exact .inr (.inr rfl)
      | single _ hq => exact .inr (.inl ⟨_, hq, rfl⟩)
      | literal hs hq =>
        left
        rw [if_neg (by simp [hs])]
        exact List.mem_map_of_mem (ih.mpr hq)

theorem Covers.cons_cases (h : d.Covers (s :: p) path) : (s = d.multi ∧ p = []) ∨
    ∃ x rest, path = x :: rest ∧ d.Covers p rest ∧
      (s = d.single ∨ s = x ∧ (d.read s).isWildcard = false) := by
  generalize hsp : s :: p = sp at h
  cases h with
  | nil => cases hsp
  | multi => obtain ⟨rfl, rfl⟩ := List.cons.inj hsp; exact .inl ⟨rfl, rfl⟩
  | single x h => obtain ⟨rfl, rfl⟩ := List.cons.inj hsp; exact .inr ⟨x, _, rfl, h, .inl rfl⟩
  | literal hs h => obtain ⟨rfl, rfl⟩ := List.cons.inj hsp; exact .inr ⟨_, _, rfl, h, .inr ⟨rfl, hs⟩⟩

theorem rank_single (d : Dialect) : d.rank d.single = 1 := by rw [rank, read_single]

theorem rank_multi (hd : d.single ≠ d.multi) : d.rank d.multi = 2 := by rw [rank, read_multi hd]

theorem rank_literal (hs : (d.read s).isWildcard = false) : d.rank s = 0 := by
  unfold rank
  split <;> simp_all [Segment.isWildcard]

theorem Precedes.irrefl (d : Dialect) (p : List String) : ¬ d.Precedes p p := by
  induction p with
  | nil => intro h; cases h
  | cons s p ih =>
    intro h
    cases h with
    | cons h => exact ih h
    | rel h => exact Nat.lt_irrefl _ h

theorem pairwise_patterns (hd : d.single ≠ d.multi) (path : List String) :
    (d.patterns path).Pairwise d.Precedes := by
  induction path with
  | nil => simp [patterns, Precedes]
  | cons s path ih =>
    have hcons : ∀ t, ((d.patterns path).map (t :: ·)).Pairwise d.Precedes := fun t =>
      List.pairwise_map.mpr (ih.imp .cons)
    refine List.pairwise_append.mpr ⟨?_, List.pairwise_append.mpr ⟨hcons d.single, ?_, ?_⟩, ?_⟩
    · split
      exacts [.nil, hcons s]
    · exact List.pairwise_singleton _ _
    · intro p hp q hq
      obtain ⟨p, -, rfl⟩ := List.mem_map.mp hp
      rw [List.mem_singleton.mp hq]
      exact .rel (by rw [rank_single, rank_multi hd]; decide)
    · intro p hp q hq
      split at hp
      · cases hp
      · next hs =>
        have hs : d.rank s = 0 := rank_literal (Bool.eq_false_iff.mpr hs)
        obtain ⟨p, -, rfl⟩ := List.mem_map.mp hp
        rcases List.mem_append.mp hq with hq | hq
        · obtain ⟨q, -, rfl⟩ := List.mem_map.mp hq
          exact .rel (by rw [hs, rank_single]; decide)
        · rw [List.mem_singleton.mp hq]
          exact .rel (by rw [hs, rank_multi hd]; decide)

/-- A pattern with the multi-level token before its end covers nothing. -/
theorem Covers.not_misplaced (hd : d.single ≠ d.multi) (h : d.Covers p path) :
    d.isMisplaced p = false := by
  induction h with
  | nil => rfl
  | multi => rfl
  | single _ _ ih => rw [isMisplaced_cons_of_ne hd, ih]
  | literal hs _ ih => rw [isMisplaced_cons_of_ne (ne_multi_of_isWildcard hs), ih]

end Dialect

namespace Node

theorem atChild_matching (d : Dialect) (n : Node α) (s : String) (path : List String) :
    n.atChild s (matching d · path) = (n.child s).matching d path :=
  atChild_eq (matching_empty d path) n s

theorem flatMap_valuesAt_cons (n : Node α) (s : String) (ps : List (List String)) :
    (ps.map (s :: ·)).flatMap n.valuesAt = ps.flatMap (n.child s).valuesAt := by
  rw [List.flatMap_map]
  congr 1
  funext p
  exact valuesAt_cons n s p

theorem flatMap_valuesAt_multi (d : Dialect) (n : Node α) :
    [[d.multi]].flatMap n.valuesAt = n.multiValues d := by
  simp [multiValues, valuesAt_cons]

/-- Looking for matches collects what is stored at the covering patterns, in their order. -/
theorem matching_eq_flatMap (d : Dialect) (n : Node α) (path : List String) :
    n.matching d path = (d.patterns path).flatMap n.valuesAt := by
  induction path generalizing n with
  | nil =>
    simp [matching, Dialect.patterns, multiValues, valuesAt_cons]
  | cons s path ih =>
    rw [matching, Dialect.patterns, List.flatMap_append, List.flatMap_append, flatMap_valuesAt_cons,
      flatMap_valuesAt_multi, atChild_matching, ih]
    congr 1
    cases hs : d.read s with
    | literal text =>
      obtain ⟨rfl, -⟩ := Dialect.read_eq_literal_iff.mp hs
      rw [if_neg (by simp [Segment.isWildcard]), flatMap_valuesAt_cons, ← ih, ← atChild_matching]
    | single | multi => rfl

end Node

namespace Index

variable [BEq α] [PartialEquivBEq α]

/-- A value is found for a topic where it is stored at a pattern that covers the topic. -/
theorem among_matching {t : Index α} {topic : String} {v : α} : Among v (t.matching topic) ↔
    ∃ p, t.dialect.Covers p (t.path topic) ∧ Among v (t.root.valuesAt p) := by
  rw [matching, among_eraseDups, Node.matching_eq_flatMap, among_flatMap]
  simp only [Dialect.mem_patterns]

/-- The values found for a topic are those whose pattern covers it, equal ones once. With two tokens
they come in the order of their patterns, each pattern visited once. -/
theorem matching_covers (d : Dialect) (g : Guard) (cs : List (Change α)) (topic : String) :
    let t := (empty d g : Index α).run cs
    (∀ p, ∀ v ∈ t.root.valuesAt p, d.Covers p (d.split topic) → Among v (t.matching topic)) ∧
    (∀ v ∈ t.matching topic, ∃ u, d.Covers (d.split u) (d.split topic) ∧ v ∈ t.valuesAt u) ∧
    (d.single ≠ d.multi →
      (∀ p, d.isMisplaced p = true → ¬ d.Covers p (d.split topic)) ∧
      ∃ ps : List (List String), ps.Pairwise d.Precedes ∧ ps.Nodup ∧
        (∀ p, p ∈ ps ↔ d.Covers p (d.split topic) ∧ t.root.valuesAt p ≠ []) ∧
        t.matching topic = (ps.flatMap t.root.valuesAt).eraseDups) := by
  intro t
  have ht : t.Sound := sound_run d g cs
  have hdialect : t.dialect = d := dialect_run _ cs
  have hpath : ∀ u, t.path u = d.split u := path_run d g cs
  have hmatch : t.matching topic = ((d.patterns (d.split topic)).flatMap t.root.valuesAt).eraseDups := by
    rw [matching, hpath, Node.matching_eq_flatMap, hdialect]
  refine ⟨fun p v hv hp => ?_, fun v hv => ?_, fun hd => ⟨fun p hm hp => ?_, ?_⟩⟩
  · rw [among_matching, hdialect, hpath]
    exact ⟨p, hp, among_of_mem hv⟩
  · rw [hmatch] at hv
    obtain ⟨p, hp, hv⟩ := List.mem_flatMap.mp (mem_of_mem_eraseDups hv)
    obtain ⟨u, rfl⟩ := ht.exists_topic (List.ne_nil_of_mem hv)
    rw [hpath] at hp
    exact ⟨u, Dialect.mem_patterns.mp hp, hv⟩
  · rw [hp.not_misplaced hd] at hm; cases hm
  · have hpw := (Dialect.pairwise_patterns hd (d.split topic)).filter fun p =>
      !(t.root.valuesAt p).isEmpty
    refine ⟨_, hpw, hpw.imp ?_, fun p => ?_, ?_⟩
    · rintro p _ h rfl
      exact Dialect.Precedes.irrefl d p h
    · simp [Dialect.mem_patterns]
    · rw [hmatch, flatMap_filter_isEmpty]

theorem matching_covers_household :
    let t := (empty .mqtt .strict : Index Nat).run [.insert "home/#" 3, .insert "home/+/t" 2]
    2 ∈ t.root.valuesAt ["home", "+", "t"] ∧
    Dialect.mqtt.Covers ["home", "+", "t"] (Dialect.mqtt.split "home/kitchen/t") ∧
    Among 2 (t.matching "home/kitchen/t") ∧
    ∃ ps : List (List String), ps.Nodup ∧ (∀ p ∈ ps, t.root.valuesAt p ≠ []) ∧
      t.matching "home/kitchen/t" = (ps.flatMap t.root.valuesAt).eraseDups := by
  intro t
  obtain ⟨hfound, -, hlist⟩ := matching_covers .mqtt .strict
    [.insert "home/#" 3, .insert "home/+/t" 2] "home/kitchen/t"
  have hv : 2 ∈ t.root.valuesAt ["home", "+", "t"] := by decide
  have hsplit : Dialect.mqtt.split "home/kitchen/t" = ["home", "kitchen", "t"] := by decide
  have hcovers : Dialect.mqtt.Covers ["home", "+", "t"] (Dialect.mqtt.split "home/kitchen/t") := by
    rw [hsplit]
    exact .literal (by decide) (.single "kitchen" (.literal (by decide) .nil))
  obtain ⟨-, ps, -, hnodup, hmem, heq⟩ := hlist (by decide)
  exact ⟨hv, hcovers, hfound _ 2 hv hcovers, ps, hnodup, fun p hp => ((hmem p).mp hp).2, heq⟩

end Index

end TopicIndex
