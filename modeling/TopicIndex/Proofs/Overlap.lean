import TopicIndex.Proofs.Covers
import TopicIndex.Proofs.Ledger

/-! # Patterns with a topic in common

`Dialect.Meets p q` says which stored patterns looking for overlaps with `q` comes to, for any dialect
and any place of the tokens; `Node.met` lists them as they are visited (`Node.overlapping_eq_flatMap`).
Where the tokens differ and `p` has the multi-level one at its end only, this is the symmetric relation
of patterns: some topic without wildcards is covered by both (`Meets.exists_common`,
`meets_of_common`). A topic between two patterns is made of literal segments, with a fresh one where
both leave the choice. -/

namespace TopicIndex

universe u

variable {α : Type u}

namespace Dialect

variable {d : Dialect} {s : String} {p q path : List String}

/-- A stored pattern and a query, compared from the left. -/
inductive Meets (d : Dialect) : List String → List String → Prop
  | nil : Meets d [] []
  | absorb (q : List String) : Meets d [d.multi] q
  | literal {s : String} {p q : List String} :
      (d.read s).isWildcard = false → Meets d p q → Meets d (s :: p) (s :: q)
  | single {s : String} {p q : List String} :
      (d.read s).isWildcard = false → Meets d p q → Meets d (d.single :: p) (s :: q)
  | each (s : String) {p q : List String} : Meets d p q → Meets d (s :: p) (d.single :: q)
  | all (p : List String) {s : String} (q : List String) : d.read s = .multi → Meets d p (s :: q)

/-- A query up to its first multi-level segment. -/
def cut (d : Dialect) : List String → List String
  | [] => []
  | s :: q => if d.read s = .multi then [s] else s :: cut d q

/-- Segments as they come from a topic without wildcards. -/
def Plain (d : Dialect) (path : List String) : Prop :=
  ∀ s ∈ path, (d.read s).isWildcard = false ∧ d.separator ∉ s.toList

/-- The topics that both patterns cover. -/
def Shares (d : Dialect) (p q : List String) (topic : String) : Prop :=
  d.isConcrete (d.split topic) = true ∧ d.Covers p (d.split topic) ∧ d.Covers q (d.split topic)

theorem cut_cons_of_ne (hd : d.single ≠ d.multi) (hs : s ≠ d.multi) (q : List String) :
    d.cut (s :: q) = s :: d.cut q := by
  rw [cut, if_neg (mt (read_eq_multi_iff hd).mp hs)]

theorem isMisplaced_cut (hd : d.single ≠ d.multi) (q : List String) : d.isMisplaced (d.cut q) = false := by
  induction q with
  | nil => rfl
  | cons s q ih =>
    rw [cut]
    split
    · rfl
    · next hs => rw [isMisplaced_cons_of_ne (mt (read_eq_multi_iff hd).mpr hs), ih]

theorem mem_of_mem_cut (h : s ∈ d.cut q) : s ∈ q := by
  induction q with
  | nil => exact h
  | cons t q ih =>
    rw [cut] at h
    split at h
    · rw [List.mem_singleton.mp h]; exact List.mem_cons_self
    · rcases List.mem_cons.mp h with rfl | h
      · exact List.mem_cons_self
      · exact List.mem_cons_of_mem _ (ih h)

/-- A segment longer than both tokens, of a character that does not separate. -/
theorem exists_literal (d : Dialect) : ∃ s, (d.read s).isWildcard = false ∧ d.separator ∉ s.toList := by
  obtain ⟨c, hc⟩ : ∃ c : Char, c ≠ d.separator := by
    by_cases h : d.separator = 'a'
    · exact ⟨'b', by rw [h]; decide⟩
    · exact ⟨'a', Ne.symm h⟩
  set cs := List.replicate (d.single.length + d.multi.length + 1) c with hcs
  have hlen : (String.ofList cs).length = d.single.length + d.multi.length + 1 := by simp [hcs]
  refine ⟨String.ofList cs, Bool.eq_false_iff.mpr fun h => ?_, ?_⟩
  · rcases isWildcard_read.mp h with h | h <;> rw [h] at hlen <;> omega
  · rw [String.toList_ofList, hcs, List.mem_replicate]
    exact fun h => hc h.2.symm

/-- A segment of a pattern that is not the multi-level token covers some literal one. -/
theorem exists_covered_segment (hs : s ≠ d.multi) (hsep : d.separator ∉ s.toList) :
    ∃ x, ((d.read x).isWildcard = false ∧ d.separator ∉ x.toList) ∧
      ∀ {p path : List String}, d.Covers p path → d.Covers (s :: p) (x :: path) := by
  by_cases h1 : s = d.single
  · obtain ⟨x, hx⟩ := d.exists_literal
    exact ⟨x, hx, fun h => h1 ▸ .single x h⟩
  · have hlit : (d.read s).isWildcard = false :=
      Bool.eq_false_iff.mpr fun h => (isWildcard_read.mp h).elim h1 hs
    exact ⟨s, ⟨hlit, hsep⟩, .literal hlit⟩

namespace Plain

theorem nil : d.Plain [] := fun _ h => nomatch h

theorem cons (hs : (d.read s).isWildcard = false ∧ d.separator ∉ s.toList) (h : d.Plain path) :
    d.Plain (s :: path) := List.forall_mem_cons.mpr ⟨hs, h⟩

/-- Every pattern with the multi-level token at its end only covers some topic without wildcards. -/
theorem exists_covered (hm : d.isMisplaced p = false) (hp : ∀ s ∈ p, d.separator ∉ s.toList) :
    ∃ path, d.Plain path ∧ d.Covers p path := by
  induction p with
  | nil => exact ⟨[], .nil, .nil⟩
  | cons s p ih =>
    by_cases hs : s = d.multi
    · subst hs
      rw [eq_nil_of_not_misplaced hm]
      exact ⟨[], .nil, .multi []⟩
    · rw [isMisplaced_cons_of_ne hs] at hm
      obtain ⟨hsep, hp⟩ := List.forall_mem_cons.mp hp
      obtain ⟨path, hpath, hcov⟩ := ih hm hp
      obtain ⟨x, hx, hcover⟩ := exists_covered_segment hs hsep
      exact ⟨x :: path, hpath.cons hx, hcover hcov⟩

theorem exists_covered_cut (hd : d.single ≠ d.multi) (hq : ∀ s ∈ q, d.separator ∉ s.toList) :
    ∃ path, d.Plain path ∧ d.Covers (d.cut q) path :=
  exists_covered (isMisplaced_cut hd q) fun s hs => hq s (mem_of_mem_cut hs)

end Plain

/-- What meets has a topic in common, up to the first multi-level segment of the query. -/
theorem Meets.exists_common (hd : d.single ≠ d.multi) (h : d.Meets p q) (hm : d.isMisplaced p = false)
    (hp : ∀ s ∈ p, d.separator ∉ s.toList) (hq : ∀ s ∈ q, d.separator ∉ s.toList) :
    ∃ path, d.Plain path ∧ d.Covers p path ∧ d.Covers (d.cut q) path := by
  induction h with
  | nil => exact ⟨[], .nil, .nil, .nil⟩
  | absorb q =>
    obtain ⟨path, hpath, hcov⟩ := Plain.exists_covered_cut hd hq
    exact ⟨path, hpath, .multi path, hcov⟩
  | @literal s p q hs _ ih =>
    have hne : s ≠ d.multi := ne_multi_of_isWildcard hs
    rw [isMisplaced_cons_of_ne hne] at hm
    obtain ⟨hsep, hp⟩ := List.forall_mem_cons.mp hp
    obtain ⟨path, hpath, hcp, hcq⟩ := ih hm hp (List.forall_mem_cons.mp hq).2
    rw [cut_cons_of_ne hd hne]
    exact ⟨s :: path, hpath.cons ⟨hs, hsep⟩, .literal hs hcp, .literal hs hcq⟩
  | @single s p q hs _ ih =>
    rw [isMisplaced_cons_of_ne hd] at hm
    obtain ⟨hsep, hq⟩ := List.forall_mem_cons.mp hq
    obtain ⟨path, hpath, hcp, hcq⟩ := ih hm (List.forall_mem_cons.mp hp).2 hq
    rw [cut_cons_of_ne hd (ne_multi_of_isWildcard hs)]
    exact ⟨s :: path, hpath.cons ⟨hs, hsep⟩, .single s hcp, .literal hs hcq⟩
  | @each s p q _ ih =>
    by_cases hs : s = d.multi
    · -- the pattern ends here and takes whatever the query covers
      subst hs
      obtain ⟨path, hpath, hcov⟩ := Plain.exists_covered_cut hd hq
      rw [eq_nil_of_not_misplaced hm]
      exact ⟨path, hpath, .multi path, hcov⟩
    · rw [isMisplaced_cons_of_ne hs] at hm
      obtain ⟨hsep, hp⟩ := List.forall_mem_cons.mp hp
      obtain ⟨path, hpath, hcp, hcq⟩ := ih hm hp (List.forall_mem_cons.mp hq).2
      obtain ⟨x, hx, hcover⟩ := exists_covered_segment hs hsep
      rw [cut_cons_of_ne hd hd]
      exact ⟨x :: path, hpath.cons hx, hcover hcp, .single x hcq⟩
  | all p q hs =>
    obtain ⟨path, hpath, hcov⟩ := Plain.exists_covered hm hp
    rw [cut, if_pos hs, (read_eq_multi_iff hd).mp hs]
    exact ⟨path, hpath, hcov, .multi path⟩

theorem meets_of_common (hd : d.single ≠ d.multi) (hp : d.Covers p path)
    (hq : d.Covers (d.cut q) path) : d.Meets p q := by
  induction q generalizing p path with
  | nil =>
    cases hq
    cases hp
    exacts [.nil, .absorb []]
  | cons s q ih =>
    by_cases hs : d.read s = .multi
    · exact .all p q hs
    rw [cut, if_neg hs] at hq
    obtain ⟨rfl, -⟩ | ⟨x, path, rfl, hcq, hx⟩ := hq.cons_cases
    · exact absurd (read_multi hd) hs
    cases p with
    | nil => cases hp
    | cons a p =>
      obtain ⟨rfl, rfl⟩ | ⟨_, _, h, hcp, ha⟩ := hp.cons_cases
      · exact .absorb _
      obtain ⟨rfl, rfl⟩ := List.cons.inj h
      rcases hx with rfl | ⟨rfl, hlit⟩
      · exact .each a (ih hcp hcq)
      · rcases ha with rfl | ⟨rfl, -⟩
        exacts [.single hlit (ih hcp hcq), .literal hlit (ih hcp hcq)]

theorem Plain.isConcrete (h : d.Plain path) : d.isConcrete path = true := by
  simp only [Dialect.isConcrete, List.all_eq_true, Bool.not_eq_true']
  exact fun s hs => (h s hs).1

theorem Covers.nil_right (h : d.Covers p []) (hp : p ≠ []) (path : List String) : d.Covers p path := by
  cases h with
  | nil => exact absurd rfl hp
  | multi => exact .multi path

/-- Patterns with a path in common have a topic in common: no topic is without segments, but patterns
that cover the empty path cover every path. -/
theorem exists_shares (hpath : d.Plain path) (hp : d.Covers p path) (hq : d.Covers q path)
    (hpne : p ≠ []) (hqne : q ≠ []) : ∃ topic, d.Shares p q topic := by
  have hjoin : ∀ path, path ≠ [] → d.Plain path → d.Covers p path → d.Covers q path →
      ∃ topic, d.Shares p q topic := by
    intro path hne hpath hp hq
    refine ⟨d.join path, ?_⟩
    rw [Shares, split_join d hne fun s hs => (hpath s hs).2]
    exact ⟨hpath.isConcrete, hp, hq⟩
  cases path with
  | nil =>
    obtain ⟨x, hx⟩ := d.exists_literal
    exact hjoin [x] (by simp) (Plain.nil.cons hx) (hp.nil_right hpne _) (hq.nil_right hqne _)
  | cons s path => exact hjoin _ (by simp) hpath hp hq

theorem cut_ne_nil (hq : q ≠ []) : d.cut q ≠ [] := by
  cases q with
  | nil => exact absurd rfl hq
  | cons s q => rw [cut]; split <;> simp

/-- A stored pattern meets a query where some topic without wildcards is covered by both. -/
theorem meets_iff_shares (hd : d.single ≠ d.multi) (hm : d.isMisplaced p = false) (hpne : p ≠ [])
    (hp : ∀ s ∈ p, d.separator ∉ s.toList) (hqne : q ≠ []) (hq : ∀ s ∈ q, d.separator ∉ s.toList) :
    d.Meets p q ↔ ∃ topic, d.Shares p (d.cut q) topic := by
  constructor
  · intro h
    obtain ⟨path, hpath, hcp, hcq⟩ := h.exists_common hd hm hp hq
    exact exists_shares hpath hcp hcq hpne (cut_ne_nil hqne)
  · rintro ⟨topic, -, hcp, hcq⟩
    exact meets_of_common hd hcp hcq

end Dialect

namespace Forest

theorem flatMap_eq_flatMap_child {β : Type*} {f : Forest α} (hf : f.Ordered) (see : Node α → List β) :
    f.flatMap see = f.segments.flatMap fun s => see (f.child s) := by
  induction hf with
  | nil => rfl
  | @cons s vs below rest hlt _ _ _ ih =>
    have hrest : ∀ t ∈ rest.segments, see ((cons s vs below rest).child t) = see (rest.child t) := by
      intro t ht
      have hne : s ≠ t := fun h => String.lt_irrefl _ (h ▸ hlt t ht)
      rw [child_cons_of_ne hne]
    rw [flatMap, segments, List.flatMap_cons, child_cons_self, List.flatMap_congr hrest, ih]

end Forest

namespace Node

/-- The paths that looking for overlaps comes to, in the order of the visits. -/
def met (d : Dialect) (n : Node α) : List String → List (List String)
  | [] => [[], [d.multi]]
  | s :: q =>
    match d.read s with
    | .literal text =>
      (met d (n.child text) q).map (text :: ·) ++
        ((met d (n.child d.single) q).map (d.single :: ·) ++ [[d.multi]])
    | .single =>
      (n.children.segments.flatMap fun t => (met d (n.child t) q).map (t :: ·)) ++ [[d.multi]]
    | .multi => [] :: n.children.paths

theorem atChild_overlapping (d : Dialect) (n : Node α) (s : String) (q : List String) :
    n.atChild s (overlapping d · q) = (n.child s).overlapping d q :=
  atChild_eq (overlapping_empty d q) n s

theorem overlapping_eq_flatMap (d : Dialect) {n : Node α} (hn : n.children.Ordered) (q : List String) :
    n.overlapping d q = (n.met d q).flatMap n.valuesAt := by
  induction q generalizing n with
  | nil => simp [overlapping, met, multiValues, valuesAt_cons]
  | cons s q ih =>
    have hchild : ∀ t, ((n.child t).met d q).flatMap (n.child t).valuesAt = (n.child t).overlapping d q :=
      fun t => (ih (ordered_child hn t)).symm
    rw [overlapping, met]
    cases d.read s with
    | literal text =>
      simp only [List.flatMap_append, flatMap_valuesAt_cons, hchild, flatMap_valuesAt_multi,
        atChild_overlapping]
    | single =>
      simp only [List.flatMap_append, List.flatMap_assoc, flatMap_valuesAt_cons, hchild,
        flatMap_valuesAt_multi]
      rw [Forest.flatMap_eq_flatMap_child hn]; rfl
    | multi => exact allValues_eq_flatMap hn

theorem meets_of_mem_met {d : Dialect} {n : Node α} {p q : List String} (h : p ∈ n.met d q) :
    d.Meets p q := by
  induction q generalizing n p with
  | nil =>
    simp only [met, List.mem_cons, List.not_mem_nil, or_false] at h
    rcases h with rfl | rfl
    exacts [.nil, .absorb []]
  | cons s q ih =>
    rw [met] at h
    cases hs : d.read s with
    | literal text =>
      obtain ⟨rfl, -⟩ := Dialect.read_eq_literal_iff.mp hs
      have hlit : (d.read s).isWildcard = false := by rw [hs]; rfl
      simp only [hs, List.mem_append, List.mem_map, List.mem_singleton] at h
      obtain ⟨p, hp, rfl⟩ | ⟨p, hp, rfl⟩ | rfl := h
      exacts [.literal hlit (ih hp), .single hlit (ih hp), .absorb _]
    | single =>
      obtain rfl := Dialect.read_eq_single_iff.mp hs
      simp only [hs, List.mem_append, List.mem_flatMap, List.mem_map, List.mem_singleton] at h
      obtain ⟨t, -, p, hp, rfl⟩ | rfl := h
      exacts [.each t (ih hp), .absorb _]
    | multi => exact .all p q hs

theorem mem_met_of_meets {d : Dialect} {n : Node α} (hn : n.children.Ordered) {p q : List String}
    (h : d.Meets p q) (hp : n.valuesAt p ≠ []) : p ∈ n.met d q := by
  induction h generalizing n with
  | nil => simp [met]
  | absorb q =>
    cases q with
    | nil => simp [met]
    | cons s q =>
      rw [met]
      split
      · simp
      · simp
      · exact mem_paths_of_valuesAt hn hp
  | @literal s p q hs _ ih =>
    rw [valuesAt_cons] at hp
    have hread : d.read s = .literal s := Dialect.read_eq_literal hs
    simp only [met, hread, List.mem_append, List.mem_map]
    exact .inl ⟨p, ih (ordered_child hn s) hp, rfl⟩
  | @single s p q hs _ ih =>
    rw [valuesAt_cons] at hp
    have hread : d.read s = .literal s := Dialect.read_eq_literal hs
    simp only [met, hread, List.mem_append, List.mem_map]
    exact .inr (.inl ⟨p, ih (ordered_child hn _) hp, rfl⟩)
  | @each s p q _ ih =>
    have hs : s ∈ n.children.segments := by
      by_contra hs
      refine hp (valuesAt_eq_nil ?_)
      rw [find?, child?, Forest.child?_eq_none hs]; rfl
    rw [valuesAt_cons] at hp
    simp only [met, Dialect.read_single, List.mem_append, List.mem_flatMap, List.mem_map]
    exact .inl ⟨s, hs, p, ih (ordered_child hn s) hp, rfl⟩
  | all p q hs =>
    rw [met, hs]
    exact mem_paths_of_valuesAt hn hp

end Node

namespace Index

variable [BEq α]

theorem mem_met_iff_shares {d : Dialect} (hd : d.single ≠ d.multi) {cs : List (Change α)} {q : String}
    {p : List String} (hp : ((empty d .strict : Index α).run cs).root.valuesAt p ≠ []) :
    p ∈ ((empty d .strict : Index α).run cs).root.met d (d.split q) ↔
      ∃ topic, d.Shares p (d.cut (d.split q)) topic := by
  have ht := sound_run (α := α) d .strict cs
  obtain ⟨u, rfl⟩ := ht.exists_topic hp
  rw [path_run, ← Dialect.meets_iff_shares hd (isMisplaced_of_valuesAt hp) (d.split_ne_nil u)
    (fun s hs => Dialect.separator_not_mem hs) (d.split_ne_nil q) fun s hs => Dialect.separator_not_mem hs]
  rw [path_run] at hp
  exact ⟨Node.meets_of_mem_met, fun h => Node.mem_met_of_meets ht.ordered h hp⟩

/-- A search finds what is stored under patterns with a topic in common with the query, which are the
values found for the topics that the query covers. -/
theorem overlapping_shares [PartialEquivBEq α] (d : Dialect) (hd : d.single ≠ d.multi)
    (cs : List (Change α)) (q : String) :
    let t := (empty d .strict : Index α).run cs
    (∀ v, Among v (t.overlapping q) ↔ ∃ topic, d.isConcrete (d.split topic) = true ∧
      d.Covers (d.cut (d.split q)) (d.split topic) ∧ Among v (t.matching topic)) ∧
    ∃ ps : List (List String), t.overlapping q = (ps.flatMap t.root.valuesAt).eraseDups ∧
      ∀ p, t.root.valuesAt p ≠ [] →
        (p ∈ ps ↔ ∃ topic, d.Shares p (d.cut (d.split q)) topic) := by
  intro t
  have ht : t.Sound := sound_run d .strict cs
  have hdialect : t.dialect = d := dialect_run _ cs
  have hpath : ∀ u, t.path u = d.split u := path_run d .strict cs
  have hover : t.overlapping q = ((t.root.met d (d.split q)).flatMap t.root.valuesAt).eraseDups := by
    rw [overlapping, hpath, hdialect, Node.overlapping_eq_flatMap d ht.ordered]
  refine ⟨fun v => ?_, _, hover, fun p hp => mem_met_iff_shares hd hp⟩
  rw [hover, among_eraseDups, among_flatMap]
  simp only [among_matching, hdialect, hpath]
  constructor
  · rintro ⟨p, hp, hv⟩
    obtain ⟨topic, hconc, hcp, hcq⟩ := (mem_met_iff_shares hd hv.ne_nil).mp hp
    exact ⟨topic, hconc, hcq, p, hcp, hv⟩
  · rintro ⟨topic, hconc, hcq, p, hcp, hv⟩
    exact ⟨p, (mem_met_iff_shares hd hv.ne_nil).mpr ⟨topic, hconc, hcp, hcq⟩, hv⟩

theorem overlapping_shares_single :
    let t := (empty .mqtt .strict : Index Nat).run [.insert "a/+" 1, .insert "b" 3]
    Dialect.mqtt.single ≠ Dialect.mqtt.multi ∧ Among 1 (t.overlapping "+/x") := by
  intro t
  have hd : Dialect.mqtt.single ≠ Dialect.mqtt.multi := by decide
  have h := (overlapping_shares .mqtt hd [.insert "a/+" 1, .insert "b" 3] "+/x").1 1
  have hcut : Dialect.mqtt.cut (Dialect.mqtt.split "+/x") = ["+", "x"] := by decide
  have hsplit : Dialect.mqtt.split "a/x" = ["a", "x"] := by decide
  have hfound : Among 1 (t.matching "a/x") := by
    refine among_matching.mpr ⟨["a", "+"], ?_, among_of_mem (by decide)⟩
    rw [path_run, dialect_run]
    show Dialect.mqtt.Covers _ (Dialect.mqtt.split "a/x")
    rw [hsplit]
    exact .literal (by decide) (.single "x" .nil)
  -- the topic in common is `a/x`
  refine ⟨hd, h.mpr ⟨"a/x", by decide, ?_, hfound⟩⟩
  rw [hcut, hsplit]
  exact .single "a" (.literal (by decide) .nil)

end Index

end TopicIndex
