import TopicIndex.Proofs.Entrywise
import TopicIndex.Proofs.Spelling

/-! # From raw text to a delivery

What `parse` lets through suits an index: a filter has the multi-level token at its end at most, so it is
stored whatever the guard (`Topic.not_refuses_of_parse`), and a name has no wildcard
(`Topic.isConcrete_of_parse`). The segments of what was parsed are the path read from the raw text, so
the raw texts decide which stored values are found (`Sound.among_matching_of_parse`). -/

namespace TopicIndex

universe u

variable {α : Type u}

theorem not_mem_dropLast {m : String} {path : List String} (h : path.Pairwise fun s _ => s ≠ m) :
    m ∉ path.dropLast := by
  intro hm
  have hne : path ≠ [] := by rintro rfl; cases hm
  rw [← List.dropLast_append_getLast hne] at h
  obtain ⟨-, -, hcross⟩ := List.pairwise_append.mp h
  exact hcross m hm _ (List.mem_singleton_self _) rfl

namespace Topic

variable {text topic : String}

theorem not_refuses_of_parse (h : parse .filter text = .ok topic) (g : Guard) :
    ¬ Dialect.mqtt.Refuses g topic := by
  obtain ⟨-, hfault, rfl⟩ := parse_eq_ok_iff.mp h
  obtain ⟨-, hlast⟩ := fault?_filter_eq_none.mp hfault
  rintro ⟨-, hmem⟩
  exact not_mem_dropLast hlast hmem

theorem isConcrete_of_parse (h : parse .name text = .ok topic) :
    Dialect.mqtt.isConcrete (Dialect.mqtt.split topic) = true := by
  obtain ⟨-, hfault, rfl⟩ := parse_eq_ok_iff.mp h
  have hplain := fault?_name_eq_none.mp hfault
  rw [Dialect.isConcrete, List.all_eq_true]
  intro segment hmem
  rw [Bool.not_eq_true', ← Bool.not_eq_true, Dialect.isWildcard_read]
  rintro (rfl | rfl)
  · have hplus := hplain _ hmem
    cases hplus
  · have hhash := hplain _ hmem
    cases hhash

end Topic

namespace Index

variable [BEq α] {t : Index α} {topic : String} {v : α}

theorem apply_insert (h : ¬ t.dialect.Refuses t.guard topic) (v : α) : t.apply (.insert topic v) =
    .ok (t.after (.insert topic v), .inserted topic !((t.valuesAt topic).any (· == v))) := by
  rw [after, apply, misplacement?_eq, if_neg h]

variable [PartialEquivBEq α]

theorem Sound.among_matching (h : t.Sound) : Among v (t.matching topic) ↔
    ∃ u, t.dialect.Covers (t.path u) (t.path topic) ∧ Among v (t.valuesAt u) := by
  rw [Index.among_matching]
  constructor
  · rintro ⟨p, hp, hv⟩
    obtain ⟨u, rfl⟩ := h.exists_topic hv.ne_nil
    exact ⟨u, hp, hv⟩
  · rintro ⟨u, hu, hv⟩
    exact ⟨t.path u, hu, hv⟩

/-- For a name that `parse` accepts, the raw text decides which filters cover it. -/
theorem Sound.among_matching_of_parse (h : t.Sound) (hd : t.dialect = .mqtt) {rawName name : String}
    (hname : Topic.parse .name rawName = .ok name) : Among v (t.matching name) ↔
      ∃ u, Dialect.mqtt.Covers (Dialect.mqtt.split u) (Topic.pathOf rawName) ∧ Among v (t.valuesAt u) := by
  have hpath : ∀ u, t.path u = Dialect.mqtt.split u := fun u => by rw [path, hd]
  rw [h.among_matching, hd]
  simp only [hpath, Topic.split_of_parse hname]

/-- Values under filters that `parse` accepts are stored, and found for the names that it accepts where
the raw filter covers the raw name, whatever separators were repeated in either. -/
theorem parsed_topics_deliver {rawFilter rawName filter name : String}
    (hfilter : Topic.parse .filter rawFilter = .ok filter)
    (hname : Topic.parse .name rawName = .ok name) (g : Guard) (cs : List (Change α)) {v : α}
    (hv : (v == v) = true) :
    let t := (empty .mqtt g).run cs
    let t' := t.after (.insert filter v)
    (∃ fresh, t.apply (.insert filter v) = .ok (t', .inserted filter fresh)) ∧
    (Dialect.mqtt.isConcrete (Dialect.mqtt.split name) = true ∧ t.overlapping name = t.matching name) ∧
    (Dialect.mqtt.Covers (Topic.pathOf rawFilter) (Topic.pathOf rawName) →
      ∃ w ∈ t'.matching name, (w == v) = true) ∧
    ((∀ u, u ≠ filter → t'.valuesAt u = []) → (∃ w ∈ t'.matching name, (w == v) = true) →
      Dialect.mqtt.Covers (Topic.pathOf rawFilter) (Topic.pathOf rawName)) ∧
    ∀ rawFilter' rawName', Topic.Respaced rawFilter rawFilter' → Topic.Respaced rawName rawName' →
      Topic.parse .filter rawFilter' = .ok filter ∧ Topic.parse .name rawName' = .ok name := by
  intro t t'
  have ht : t.Sound := sound_run .mqtt g cs
  have ht' : t'.Sound := ht.after _
  have hdialect : t.dialect = .mqtt := dialect_run _ cs
  have hdialect' : t'.dialect = .mqtt := (dialect_after t _).trans hdialect
  have hfree : ¬ t.dialect.Refuses t.guard filter := by
    rw [hdialect]
    exact Topic.not_refuses_of_parse hfilter t.guard
  have hconc := Topic.isConcrete_of_parse hname
  have hread : Dialect.mqtt.split filter = Topic.pathOf rawFilter := Topic.split_of_parse hfilter
  rw [← among_iff_exists_beq hv, ht'.among_matching_of_parse hdialect' hname]
  refine ⟨⟨_, apply_insert hfree v⟩, ⟨hconc, ?_⟩, fun hcovers => ?_, ?_, fun _ _ hf hn => ⟨?_, ?_⟩⟩
  · refine overlapping_eq_matching ?_
    rw [path, hdialect]
    exact hconc
  · refine ⟨filter, hread ▸ hcovers, ?_⟩
    exact (ht.among_valuesAt_insert filter v).mpr (.inr ⟨⟨rfl, hfree⟩, .inl rfl⟩)
  · rintro honly ⟨u, hcovers, hu⟩
    obtain rfl : u = filter := by
      by_contra hne
      exact hu.ne_nil (honly u hne)
    rwa [hread] at hcovers
  · rw [← hf.parse_eq, hfilter]
  · rw [← hn.parse_eq, hname]

theorem parsed_topics_deliver_respaced :
    let rawFilter := "home//+/t"
    let rawName := "home/kitchen/t/"
    let t' := ((empty .mqtt .strict : Index Nat).run [.insert "home/#" 3]).after (.insert "home/+/t" 2)
    Topic.parse .filter rawFilter = .ok "home/+/t" ∧ Topic.parse .name rawName = .ok "home/kitchen/t" ∧
    (2 == 2) = true ∧ Topic.Respaced rawName "home/kitchen/t" ∧
    Topic.parse .name "home/kitchen/t" = .ok "home/kitchen/t" ∧
    ∃ w ∈ t'.matching "home/kitchen/t", (w == 2) = true := by
  intro rawFilter rawName t'
  have hfilter : Topic.parse .filter rawFilter = .ok "home/+/t" := by decide
  have hname : Topic.parse .name rawName = .ok "home/kitchen/t" := by decide
  have hend : rawName.toList = "home/kitchen/t".toList ++ ['/'] := by decide
  have hlonger : Topic.Padded "home/kitchen/t" rawName := by
    rw [Topic.Padded, hend]
    exact .last _
  have hrespaced : Topic.Respaced rawName "home/kitchen/t" := .symm _ _ (.rel _ _ hlonger)
  obtain ⟨-, -, hdelivers, -, hrespacing⟩ :=
    parsed_topics_deliver hfilter hname .strict [.insert "home/#" 3] (v := 2) rfl
  have hcovers : Dialect.mqtt.Covers (Topic.pathOf rawFilter) (Topic.pathOf rawName) := by
    have hpaths : Topic.pathOf rawFilter = ["home", "+", "t"] ∧
        Topic.pathOf rawName = ["home", "kitchen", "t"] := by decide
    rw [hpaths.1, hpaths.2]
    exact .literal (by decide) (.single "kitchen" (.literal (by decide) .nil))
  exact ⟨hfilter, hname, rfl, hrespaced, (hrespacing rawFilter _ (.refl _) hrespaced).2,
    hdelivers hcovers⟩

end Index

end TopicIndex
