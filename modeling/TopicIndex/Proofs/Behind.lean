import TopicIndex.Proofs.Entrywise

/-! # What is stored behind a multi-level token

A lenient index keeps topics with the multi-level token before their last segment. No path is covered by
such a pattern, so what is stored there is no match of anything (`Sound.node_matching_alter`). A search
comes to it through single-level segments of the query, which go to every child whatever its segment: one
has to stand opposite every such token (`Dialect.Meets.faces`). A new entry changes the answer of a search
exactly where its topic meets the query and no equal is found already (`Sound.overlapping_insert_iff`). -/

namespace TopicIndex

universe u

variable {α : Type u}

namespace Dialect

variable {d : Dialect} {p q : List String}

/-- The query has the single-level token wherever the pattern has the multi-level one before its end. -/
def Faces (d : Dialect) (p q : List String) : Prop :=
  ∀ i, i + 1 < p.length → p[i]? = some d.multi → q[i]? = some d.single

theorem Faces.cons {s x : String} (hs : s = d.multi → x = d.single) (h : d.Faces p q) :
    d.Faces (s :: p) (x :: q) := by
  intro i hi hp
  cases i with
  | zero =>
    rw [List.getElem?_cons_zero, Option.some_inj] at hp ⊢
    exact hs hp
  | succ i =>
    rw [List.getElem?_cons_succ] at hp ⊢
    exact h i (by simpa using hi) hp

/-- Without a multi-level segment a query gets behind the multi-level token of a pattern by single-level
segments only. -/
theorem Meets.faces (hd : d.single ≠ d.multi) (h : d.Meets p q) (hq : d.multi ∉ q) : d.Faces p q := by
  induction h with
  | nil => exact nofun
  | absorb q =>
    intro i hi
    simp at hi
  | literal hs _ ih =>
    exact .cons (fun hm => absurd hm (ne_multi_of_isWildcard hs)) (ih fun h => hq (.tail _ h))
  | single _ _ ih => exact .cons (fun hm => absurd hm hd) (ih fun h => hq (.tail _ h))
  | each s _ ih => exact .cons (fun _ => rfl) (ih fun h => hq (.tail _ h))
  | all p q hs => exact absurd ((read_eq_multi_iff hd).mp hs ▸ List.mem_cons_self) hq

end Dialect

theorem Among.of_beq [BEq α] [PartialEquivBEq α] {v w : α} {vs : List α} (h : Among v vs)
    (hvw : v = w ∨ (v == w) = true) : Among w vs := by
  obtain ⟨x, hx, hxv⟩ := h
  rcases hvw with rfl | hvw
  · exact ⟨x, hx, hxv⟩
  · rcases hxv with rfl | hxv
    exacts [⟨x, hx, .inr hvw⟩, ⟨x, hx, .inr (BEq.trans hxv hvw)⟩]

namespace Index

variable {t : Index α} {topic q : String} {v : α}

/-- A list that no pattern covering the query leads to plays no part in a match. -/
theorem Sound.node_matching_alter (h : t.Sound) (f : List α → List α)
    (htopic : ¬ t.dialect.Covers (t.path topic) (t.path q)) :
    (t.alter f topic).root.matching t.dialect (t.path q) = t.root.matching t.dialect (t.path q) := by
  rw [Node.matching_eq_flatMap, Node.matching_eq_flatMap]
  refine List.flatMap_congr fun p hp => ?_
  refine Node.valuesAt_alter_of_ne h.ordered f ?_
  rintro rfl
  exact htopic (Dialect.mem_patterns.mp hp)

variable [BEq α]

theorem Sound.matching_insert (h : t.Sound) (htopic : ¬ t.dialect.Covers (t.path topic) (t.path q)) (v : α) :
    (t.after (.insert topic v)).matching q = t.matching q ∧
      (t.after (.insert topic v)).firstMatching? q = t.firstMatching? q := by
  rw [after_insert]
  split
  · exact ⟨rfl, rfl⟩
  · have hnode := h.node_matching_alter (adjoin v) htopic
    constructor
    · exact congrArg List.eraseDups hnode
    · rw [firstMatching?, firstMatching?, Node.firstMatching?_eq_head?, Node.firstMatching?_eq_head?]
      exact congrArg List.head? hnode

/-- A new entry changes the answer of a search where the search comes to it and finds no equal already. -/
theorem Sound.overlapping_insert_iff [PartialEquivBEq α] (h : t.Sound)
    (hr : ¬ t.dialect.Refuses t.guard topic) :
    (∀ w, Among w ((t.after (.insert topic v)).overlapping q) ↔ Among w (t.overlapping q)) ↔
      (t.dialect.Meets (t.path topic) (t.path q) → Among v (t.overlapping q)) := by
  simp only [h.among_overlapping_insert topic v]
  constructor
  · intro hsame hmeets
    exact (hsame v).mp (.inr ⟨⟨hmeets, hr⟩, .inl rfl⟩)
  · intro hfound w
    refine or_iff_left_of_imp ?_
    rintro ⟨⟨hmeets, -⟩, hvw⟩
    exact (hfound hmeets).of_beq hvw

/-- What is stored behind a multi-level token is never matched. A search without multi-level segments is
changed by it exactly where it comes to it and finds no equal, and not at all unless it has a single-level
segment opposite every such token. -/
theorem insert_behind_multi (d : Dialect) (hd : d.single ≠ d.multi) (cs : List (Change α))
    (topic q : String) (v : α) (htopic : d.isMisplaced (d.split topic) = true)
    (hq : d.multi ∉ d.split q) :
    let t := (empty d .lenient : Index α).run cs
    let t' := t.after (.insert topic v)
    (t'.matching q = t.matching q ∧ t'.firstMatching? q = t.firstMatching? q) ∧
    (PartialEquivBEq α →
      ((∀ w, Among w (t'.overlapping q) ↔ Among w (t.overlapping q)) ↔
        (d.Meets (d.split topic) (d.split q) → Among v (t.overlapping q))) ∧
      (¬ d.Faces (d.split topic) (d.split q) →
        ∀ w, Among w (t'.overlapping q) ↔ Among w (t.overlapping q))) := by
  intro t t'
  have ht : t.Sound := sound_run d .lenient cs
  have hdialect : t.dialect = d := dialect_run _ cs
  have hguard : t.guard = .lenient := guard_run _ cs
  have hpath : ∀ u, t.path u = d.split u := path_run d .lenient cs
  have hstored : ¬ t.dialect.Refuses t.guard topic := by
    rw [hguard]
    exact fun h => nomatch h.1
  refine ⟨ht.matching_insert (fun hcovers => ?_) v, fun _ => ?_⟩
  · rw [hdialect, hpath, hpath] at hcovers
    rw [hcovers.not_misplaced hd] at htopic; cases htopic
  · have hsame := ht.overlapping_insert_iff (v := v) (q := q) hstored
    rw [hdialect, hpath, hpath] at hsame
    exact ⟨hsame, fun hfaces => hsame.mpr fun hmeets => absurd (hmeets.faces hd hq) hfaces⟩

/-- Opposite the inner `#` the query has a literal segment, so nothing new is found. -/
theorem insert_behind_multi_literal :
    let t := (empty .mqtt .lenient : Index Nat).run [.insert "a/+" 2]
    let t' := t.after (.insert "a/#/b" 1)
    Dialect.mqtt.single ≠ Dialect.mqtt.multi ∧
    Dialect.mqtt.isMisplaced (Dialect.mqtt.split "a/#/b") = true ∧
    Dialect.mqtt.multi ∉ Dialect.mqtt.split "+/x/b" ∧
    t'.matching "+/x/b" = t.matching "+/x/b" ∧
    ∀ w, Among w (t'.overlapping "+/x/b") ↔ Among w (t.overlapping "+/x/b") := by
  intro t t'
  have hd : Dialect.mqtt.single ≠ Dialect.mqtt.multi := by decide
  have htopic : Dialect.mqtt.isMisplaced (Dialect.mqtt.split "a/#/b") = true := by decide
  have hq : Dialect.mqtt.multi ∉ Dialect.mqtt.split "+/x/b" := by decide
  have hfaces : ¬ Dialect.mqtt.Faces (Dialect.mqtt.split "a/#/b") (Dialect.mqtt.split "+/x/b") :=
    fun h => absurd (h 1 (by decide) (by decide)) (by decide)
  obtain ⟨⟨hmatch, -⟩, hsearch⟩ := insert_behind_multi .mqtt hd [.insert "a/+" 2] "a/#/b" "+/x/b" 1 htopic hq
  exact ⟨hd, htopic, hq, hmatch, (hsearch inferInstance).2 hfaces⟩

/-- A single-level segment gets behind the inner `#`. -/
theorem insert_behind_multi_found :
    let t := (empty .mqtt .lenient : Index Nat)
    let t' := t.after (.insert "a/#/b" 1)
    Dialect.mqtt.single ≠ Dialect.mqtt.multi ∧
    Dialect.mqtt.isMisplaced (Dialect.mqtt.split "a/#/b") = true ∧
    Dialect.mqtt.multi ∉ Dialect.mqtt.split "a/+/b" ∧
    t.overlapping "a/+/b" = [] ∧ t'.overlapping "a/+/b" = [1] ∧
    ¬ ∀ w, Among w (t'.overlapping "a/+/b") ↔ Among w (t.overlapping "a/+/b") := by
  intro t t'
  have hbefore : t.overlapping "a/+/b" = [] := by decide
  have hafter : t'.overlapping "a/+/b" = [1] := by decide
  refine ⟨by decide, by decide, by decide, hbefore, hafter, fun h => ?_⟩
  have hfound : Among 1 (t.overlapping "a/+/b") := (h 1).mp (by rw [hafter]; exact ⟨1, by simp, .inl rfl⟩)
  exact hfound.ne_nil hbefore

end Index

end TopicIndex
