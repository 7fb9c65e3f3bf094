import TopicIndex.Proofs.Overlap

/-! # Answers entry by entry

Whether a search comes to a stored value depends on the pattern of the value and on the query alone
(`Dialect.Meets`), not on what else is stored: an index with one entry finds it where the pattern meets
the query (`mem_overlapping_alone`), and a new entry adds to an answer what it is found for by itself
(`Sound.among_overlapping_insert`). This holds in every dialect and with the multi-level token anywhere.
A pattern that covers a topic meets it (`Dialect.Covers.meets`), so a search finds no less than a match. -/

namespace TopicIndex

universe u

variable {α : Type u}

theorem Dialect.Covers.meets {d : Dialect} {p path : List String} (h : d.Covers p path) :
    d.Meets p path := by
  induction h with
  | nil => exact .nil
  | multi path => exact .absorb path
  | @single s p path _ ih =>
    -- the topic may have a wildcard here, and where the tokens coincide it is the single-level one
    cases hs : d.read s with
    | literal text =>
      have hlit : (d.read s).isWildcard = false := by rw [hs]; rfl
      exact .single hlit ih
    | single =>
      obtain rfl : s = d.single := Dialect.read_eq_single_iff.mp hs
      exact .each d.single ih
    | multi => exact .all _ path hs
  | literal hs _ ih => exact .literal hs ih

theorem Node.mem_overlapping_of_mem_matching {d : Dialect} {n : Node α} (hn : n.children.Ordered)
    {path : List String} {v : α} (h : v ∈ n.matching d path) : v ∈ n.overlapping d path := by
  rw [matching_eq_flatMap, List.mem_flatMap] at h
  obtain ⟨p, hp, hv⟩ := h
  have hmeets : d.Meets p path := (Dialect.mem_patterns.mp hp).meets
  rw [overlapping_eq_flatMap d hn, List.mem_flatMap]
  exact ⟨p, mem_met_of_meets hn hmeets (List.ne_nil_of_mem hv), hv⟩

namespace Index

variable {t : Index α} {d : Dialect} {g : Guard} {q u topic : String} {v w : α}

theorem Sound.mem_node_overlapping (h : t.Sound) : v ∈ t.root.overlapping t.dialect (t.path q) ↔
    ∃ u, t.dialect.Meets (t.path u) (t.path q) ∧ v ∈ t.valuesAt u := by
  rw [Node.overlapping_eq_flatMap t.dialect h.ordered, List.mem_flatMap]
  constructor
  · rintro ⟨p, hp, hv⟩
    obtain ⟨u, rfl⟩ := h.exists_topic (List.ne_nil_of_mem hv)
    exact ⟨u, Node.meets_of_mem_met hp, hv⟩
  · rintro ⟨u, hmeets, hv⟩
    exact ⟨t.path u, Node.mem_met_of_meets h.ordered hmeets (List.ne_nil_of_mem hv), hv⟩

variable [BEq α]

theorem Sound.exists_of_mem_overlapping (h : t.Sound) (hv : v ∈ t.overlapping q) :
    ∃ u, t.dialect.Meets (t.path u) (t.path q) ∧ v ∈ t.valuesAt u :=
  h.mem_node_overlapping.mp (mem_of_mem_eraseDups hv)

theorem not_refuses_of_mem {cs : List (Change α)} (hv : v ∈ ((empty d g).run cs).valuesAt u) :
    ¬ d.Refuses g u := by
  intro hr
  rw [valuesAt_run_empty, Ledger.ofChanges_of_refuses hr] at hv
  cases hv

/-- An index with one entry holds nothing else. -/
theorem eq_of_mem_valuesAt_insert (hv : v ∈ ((empty d g).run [.insert topic w]).valuesAt u) : v = w := by
  have hnamed : (u, v) ∈ [(topic, w)] := mem_of_mem_run_insertions _ hv
  exact congrArg Prod.snd (List.mem_singleton.mp hnamed)

/-- A query without wildcards is looked up like a topic. -/
theorem overlapping_eq_matching (h : t.dialect.isConcrete (t.path topic) = true) :
    t.overlapping topic = t.matching topic := by
  rw [overlapping, matching, Node.overlapping_eq_matching h]

/-- Where a topic has no wildcards the search is the match, and otherwise it finds no less. -/
theorem matching_within_overlapping (d : Dialect) (g : Guard) (cs : List (Change α)) (topic : String) :
    let t := (empty d g).run cs
    (d.isConcrete (d.split topic) = true → t.overlapping topic = t.matching topic ∧
      t.firstOverlapping? topic = t.firstMatching? topic) ∧
    (PartialEquivBEq α → ∀ v ∈ t.matching topic, Among v (t.overlapping topic)) := by
  intro t
  have ht : t.Sound := sound_run d g cs
  constructor
  · intro h
    have hconc : t.dialect.isConcrete (t.path topic) = true := by
      rw [path_run, dialect_run]
      exact h
    refine ⟨overlapping_eq_matching hconc, ?_⟩
    rw [firstOverlapping?, firstMatching?, Node.firstOverlapping?_eq_head?,
      Node.firstMatching?_eq_head?, Node.overlapping_eq_matching hconc]
  · intro _ v hv
    have hfound : v ∈ t.root.overlapping t.dialect (t.path topic) :=
      Node.mem_overlapping_of_mem_matching ht.ordered (mem_of_mem_eraseDups hv)
    exact among_eraseDups.mpr (among_of_mem hfound)

theorem matching_within_overlapping_merged :
    let d : Dialect := ⟨'/', "*", "*"⟩
    let t := (empty d .lenient : Index Nat).run [.insert "*/b" 1, .insert "a/b" 2]
    d.isConcrete (d.split "a/b") = true ∧ t.overlapping "a/b" = t.matching "a/b" ∧
    1 ∈ t.matching "*/b" ∧ Among 1 (t.overlapping "*/b") := by
  intro d t
  have hconc : d.isConcrete (d.split "a/b") = true := by decide
  have hmem : 1 ∈ t.matching "*/b" := by decide
  have hsame := (matching_within_overlapping d .lenient [.insert "*/b" 1, .insert "a/b" 2] "a/b").1 hconc
  have hwithin := matching_within_overlapping d .lenient [.insert "*/b" 1, .insert "a/b" 2] "*/b"
  exact ⟨hconc, hsame.1, hmem, hwithin.2 inferInstance 1 hmem⟩

variable [PartialEquivBEq α]

theorem Sound.among_overlapping (h : t.Sound) : Among v (t.overlapping q) ↔
    ∃ u, t.dialect.Meets (t.path u) (t.path q) ∧ Among v (t.valuesAt u) := by
  rw [overlapping, among_eraseDups]
  constructor
  · rintro ⟨w, hw, hwv⟩
    obtain ⟨u, hmeets, hw⟩ := h.mem_node_overlapping.mp hw
    exact ⟨u, hmeets, w, hw, hwv⟩
  · rintro ⟨u, hmeets, w, hw, hwv⟩
    exact ⟨w, h.mem_node_overlapping.mpr ⟨u, hmeets, hw⟩, hwv⟩

theorem Sound.among_valuesAt_insert (h : t.Sound) (topic : String) (w : α) :
    Among v ((t.after (.insert topic w)).valuesAt u) ↔ Among v (t.valuesAt u) ∨
      (u = topic ∧ ¬ t.dialect.Refuses t.guard topic) ∧ (w = v ∨ (w == v) = true) := by
  rw [h.valuesAt_after, Ledger.after]
  by_cases hr : t.dialect.Refuses t.guard topic
  · simp [hr]
  · rw [if_neg hr]
    by_cases hu : u = topic
    · subst hu
      have hadjoin : (if (t.valuesAt u).any (· == w) then t.valuesAt u else t.valuesAt u ++ [w]) =
          adjoin w (t.valuesAt u) := rfl
      rw [Function.update_self, hadjoin, among_adjoin]
      simp [hr]
    · rw [Function.update_of_ne hu]
      simp [hu]

/-- What a new entry adds to an answer. -/
theorem Sound.among_overlapping_insert (h : t.Sound) (topic : String) (w : α) :
    Among v ((t.after (.insert topic w)).overlapping q) ↔ Among v (t.overlapping q) ∨
      (t.dialect.Meets (t.path topic) (t.path q) ∧ ¬ t.dialect.Refuses t.guard topic) ∧
        (w = v ∨ (w == v) = true) := by
  have hpath : ∀ u, (t.after (.insert topic w)).path u = t.path u := fun u => by
    rw [path, dialect_after, path]
  rw [(h.after _).among_overlapping, h.among_overlapping]
  simp only [hpath, dialect_after, h.among_valuesAt_insert]
  constructor
  · rintro ⟨u, hmeets, hv | ⟨⟨rfl, hr⟩, hwv⟩⟩
    · exact .inl ⟨u, hmeets, hv⟩
    · exact .inr ⟨⟨hmeets, hr⟩, hwv⟩
  · rintro (⟨u, hmeets, hv⟩ | ⟨⟨hmeets, hr⟩, hwv⟩)
    · exact ⟨u, hmeets, .inl hv⟩
    · exact ⟨topic, hmeets, .inr ⟨⟨rfl, hr⟩, hwv⟩⟩

theorem among_overlapping_alone (d : Dialect) (g : Guard) (topic : String) (w : α) (q : String) :
    Among v (((empty d g).run [.insert topic w]).overlapping q) ↔
      (d.Meets (d.split topic) (d.split q) ∧ ¬ d.Refuses g topic) ∧ (w = v ∨ (w == v) = true) := by
  have hnone : ¬ Among v ((empty d g : Index α).overlapping q) := by
    rw [(sound_empty d g).among_overlapping]
    rintro ⟨u, -, hv⟩
    exact hv.ne_nil (Node.valuesAt_empty _)
  have hinsert := (sound_empty (α := α) d g).among_overlapping_insert (v := v) (q := q) topic w
  rw [or_iff_right hnone] at hinsert
  exact hinsert

theorem mem_overlapping_alone (d : Dialect) (g : Guard) (topic : String) (w : α) (q : String) :
    w ∈ ((empty d g).run [.insert topic w]).overlapping q ↔
      d.Meets (d.split topic) (d.split q) ∧ ¬ d.Refuses g topic := by
  have halone := among_overlapping_alone (v := w) d g topic w q
  constructor
  · intro hw
    exact (halone.mp (among_of_mem hw)).1
  · intro h
    obtain ⟨x, hx, -⟩ := halone.mpr ⟨h, .inl rfl⟩
    obtain ⟨u, -, hxu⟩ := (sound_run d g _).exists_of_mem_overlapping hx
    rwa [eq_of_mem_valuesAt_insert hxu] at hx

/-- A search finds what it finds of each entry by itself: no entry hides another or makes it found, and
a new one adds what it is found for alone, which are its equals at most. -/
theorem overlapping_entrywise (d : Dialect) (g : Guard) (cs : List (Change α)) (q : String) :
    let t := (empty d g).run cs
    let alone := fun topic v => (empty d g : Index α).run [.insert topic v]
    (∀ v, Among v (t.overlapping q) ↔ ∃ topic, ∃ w ∈ t.valuesAt topic,
      (w = v ∨ (w == v) = true) ∧ w ∈ (alone topic w).overlapping q) ∧
    ∀ topic w,
      (∀ v, Among v ((t.after (.insert topic w)).overlapping q) ↔
        Among v (t.overlapping q) ∨ Among v ((alone topic w).overlapping q)) ∧
      ∀ v, ¬ (w = v ∨ (w == v) = true) →
        (Among v ((t.after (.insert topic w)).overlapping q) ↔ Among v (t.overlapping q)) := by
  intro t alone
  have ht : t.Sound := sound_run d g cs
  have hdialect : t.dialect = d := dialect_run _ cs
  have hguard : t.guard = g := guard_run _ cs
  have hpath : ∀ u, t.path u = d.split u := path_run d g cs
  refine ⟨fun v => ?_, fun topic w => ⟨fun v => ?_, fun v hwv => ?_⟩⟩
  · rw [ht.among_overlapping]
    simp only [hdialect, hpath, alone, mem_overlapping_alone]
    constructor
    · rintro ⟨u, hmeets, w, hw, hwv⟩
      exact ⟨u, w, hw, hwv, hmeets, not_refuses_of_mem hw⟩
    · rintro ⟨u, w, hw, hwv, hmeets, -⟩
      exact ⟨u, hmeets, w, hw, hwv⟩
  · rw [ht.among_overlapping_insert, among_overlapping_alone, hdialect, hguard, hpath, hpath]
  · rw [ht.among_overlapping_insert, or_iff_left fun h => hwv h.2]

/-- A value below a multi-level token is found by itself, and so among others. -/
theorem overlapping_entrywise_below :
    let t := (empty .mqtt .lenient : Index Nat).run [.insert "a/#/b" 1, .insert "a/+" 2, .insert "c" 3]
    1 ∈ t.valuesAt "a/#/b" ∧
    1 ∈ ((empty .mqtt .lenient : Index Nat).run [.insert "a/#/b" 1]).overlapping "a/+/b" ∧
    Among 1 (t.overlapping "a/+/b") ∧ Among 1 ((t.after (.insert "a/+/b" 4)).overlapping "a/+/b") := by
  intro t
  have hstored : 1 ∈ t.valuesAt "a/#/b" := by decide
  have halone : 1 ∈ ((empty .mqtt .lenient : Index Nat).run [.insert "a/#/b" 1]).overlapping "a/+/b" := by
    decide
  obtain ⟨hentries, hinsert⟩ := overlapping_entrywise .mqtt .lenient
    [.insert "a/#/b" (1 : Nat), .insert "a/+" 2, .insert "c" 3] "a/+/b"
  have hfound : Among 1 (t.overlapping "a/+/b") :=
    (hentries 1).mpr ⟨"a/#/b", 1, hstored, .inl rfl, halone⟩
  exact ⟨hstored, halone, hfound, ((hinsert "a/+/b" 4).1 1).mpr (.inl hfound)⟩

end Index

end TopicIndex
