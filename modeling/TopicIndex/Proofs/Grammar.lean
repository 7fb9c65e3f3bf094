import TopicIndex.Proofs.Canonical

/-! # The grammar of topic text

Which texts `parse` accepts is said of the raw text (`IsFilter`, `IsName`), which fault it reports of the
others of the segments of the canonical one, where the leftmost fault counts (`FirstFault`). The two agree
as the segments that `canonical` drops are empty and hold no wildcard. -/

namespace TopicIndex.Topic

/-- The text of a filter: a wildcard character is a segment of its own, and what follows the
multi-level one is empty. -/
structure IsFilter (text : String) : Prop where
  inhabited : ∃ c ∈ text.toList, c ≠ '/'
  alone : ∀ segment ∈ Dialect.mqtt.split text, mentionsWildcard segment = true →
    segment = "+" ∨ segment = "#"
  last : (Dialect.mqtt.split text).Pairwise fun segment later => segment = "#" → later = ""

/-- The text of a name: it has no wildcard characters. -/
structure IsName (text : String) : Prop where
  inhabited : ∃ c ∈ text.toList, c ≠ '/'
  plain : mentionsWildcard text = false

/-- What is wrong with the segment at position `i` of `topic`, which has the segments `path`. -/
inductive FaultAt (role : Role) (topic : String) (path : List String) (i : Nat) : Error → Prop where
  | mixed {segment : String} (hi : path[i]? = some segment) (hw : mentionsWildcard segment = true)
      (hs : segment ≠ "+") (hm : segment ≠ "#") : FaultAt role topic path i (.mixed segment)
  | wildcard (hrole : role = .name) (hi : path[i]? = some "+" ∨ path[i]? = some "#") :
      FaultAt role topic path i (.wildcard topic)
  | notLast (hrole : role = .filter) (hi : path[i]? = some "#") (hlast : i + 1 < path.length) :
      FaultAt role topic path i (.notLast topic)

/-- The leftmost fault. -/
def FirstFault (role : Role) (topic : String) (path : List String) (e : Error) : Prop :=
  ∃ i, FaultAt role topic path i e ∧ ∀ j < i, ∀ e', ¬ FaultAt role topic path j e'

section Fault

variable {role : Role} {topic segment : String} {path : List String} {i : Nat} {e : Error}

theorem faultAt_cons_succ :
    FaultAt role topic (segment :: path) (i + 1) e ↔ FaultAt role topic path i e := by
  constructor
  · rintro (⟨hi, hw, hs, hm⟩ | ⟨hrole, hi⟩ | ⟨hrole, hi, hlast⟩)
    · exact .mixed hi hw hs hm
    · exact .wildcard hrole hi
    · exact .notLast hrole hi (by simpa using hlast)
  · rintro (⟨hi, hw, hs, hm⟩ | ⟨hrole, hi⟩ | ⟨hrole, hi, hlast⟩)
    · exact .mixed (by simpa using hi) hw hs hm
    · exact .wildcard hrole (by simpa using hi)
    · exact .notLast hrole (by simpa using hi) (by simpa using hlast)

theorem not_firstFault_nil : ¬ FirstFault role topic [] e := by
  rintro ⟨i, h, -⟩
  cases h <;> simp_all

theorem firstFault_cons : FirstFault role topic (segment :: path) e ↔
    FaultAt role topic (segment :: path) 0 e ∨
      (∀ e', ¬ FaultAt role topic (segment :: path) 0 e') ∧ FirstFault role topic path e := by
  constructor
  · rintro ⟨_ | i, h, hfirst⟩
    · exact .inl h
    · refine .inr ⟨hfirst 0 (Nat.succ_pos i), i, faultAt_cons_succ.mp h, fun j hj e' h' => ?_⟩
      exact hfirst (j + 1) (Nat.succ_lt_succ hj) e' (faultAt_cons_succ.mpr h')
  · rintro (h | ⟨hhead, i, h, hfirst⟩)
    · exact ⟨0, h, by simp⟩
    · refine ⟨i + 1, faultAt_cons_succ.mpr h, fun j hj e' h' => ?_⟩
      cases j with
      | zero => exact hhead e' h'
      | succ j => exact hfirst j (Nat.lt_of_succ_lt_succ hj) e' (faultAt_cons_succ.mp h')

theorem fault?_plus : fault? role topic ("+" :: path) =
    if role = .name then some (.wildcard topic) else fault? role topic path := rfl

theorem fault?_hash : fault? role topic ("#" :: path) =
    if role = .name then some (.wildcard topic)
    else if path = [] then none else some (.notLast topic) := rfl

theorem fault?_of_ne (hs : segment ≠ "+") (hm : segment ≠ "#") : fault? role topic (segment :: path) =
    if mentionsWildcard segment then some (.mixed segment) else fault? role topic path := by
  have hread : Dialect.mqtt.read segment = .literal segment :=
    Dialect.read_eq_literal_iff.mpr ⟨rfl, hs, hm⟩
  rw [fault?, hread]

theorem fault?_of_faultAt (h : FaultAt role topic (segment :: path) 0 e) :
    fault? role topic (segment :: path) = some e := by
  rcases h with ⟨hi, hw, hs, hm⟩ | ⟨hrole, hi⟩ | ⟨hrole, hi, hlast⟩
  · obtain rfl : segment = _ := by simpa using hi
    rw [fault?_of_ne hs hm, if_pos hw]
  · rcases hi with hi | hi
    · obtain rfl : segment = "+" := by simpa using hi
      rw [fault?_plus, if_pos hrole]
    · obtain rfl : segment = "#" := by simpa using hi
      rw [fault?_hash, if_pos hrole]
  · obtain rfl : segment = "#" := by simpa using hi
    have hne : path ≠ [] := by rintro rfl; simp at hlast
    rw [fault?_hash, if_neg (by simp [hrole]), if_neg hne]

theorem fault?_of_not_faultAt (h : ∀ e, ¬ FaultAt role topic (segment :: path) 0 e) :
    fault? role topic (segment :: path) = fault? role topic path := by
  by_cases hs : segment = "+"
  · subst hs
    have hrole : role ≠ .name := fun hrole => h _ (.wildcard hrole (.inl rfl))
    rw [fault?_plus, if_neg hrole]
  by_cases hm : segment = "#"
  · subst hm
    have hrole : role ≠ .name := fun hrole => h _ (.wildcard hrole (.inr rfl))
    have hfilter : role = .filter := by cases role <;> simp_all
    cases path with
    | nil => rw [fault?_hash, if_neg hrole, if_pos rfl]; rfl
    | cons later path => exact absurd (.notLast hfilter rfl (by simp)) (h _)
  · have hw : ¬ mentionsWildcard segment = true := fun hw => h _ (.mixed rfl hw hs hm)
    rw [fault?_of_ne hs hm, if_neg hw]

theorem fault?_eq_some_iff : fault? role topic path = some e ↔ FirstFault role topic path e := by
  induction path with
  | nil => simp [fault?, not_firstFault_nil]
  | cons segment path ih =>
    rw [firstFault_cons]
    by_cases hhead : ∃ e, FaultAt role topic (segment :: path) 0 e
    · obtain ⟨e₀, h₀⟩ := hhead
      rw [fault?_of_faultAt h₀, Option.some_inj]
      constructor
      · rintro rfl
        exact .inl h₀
      · rintro (h | ⟨hno, -⟩)
        · exact Option.some_inj.mp ((fault?_of_faultAt h₀).symm.trans (fault?_of_faultAt h))
        · exact absurd h₀ (hno e₀)
    · have hno : ∀ e, ¬ FaultAt role topic (segment :: path) 0 e := fun e h => hhead ⟨e, h⟩
      rw [fault?_of_not_faultAt hno, ih, or_iff_right (hno e), and_iff_right hno]

theorem FirstFault.subject_mem (h : FirstFault role topic path e) {subject : String}
    (he : e.subject? = some subject) : subject = topic ∨ subject ∈ path := by
  obtain ⟨i, h, -⟩ := h
  rcases h with ⟨hi, -⟩ | - | -
  · obtain rfl : _ = subject := by simpa [Error.subject?] using he
    exact .inr (List.mem_of_getElem? hi)
  all_goals exact .inl (by simpa [Error.subject?] using he.symm)

theorem fault?_filter_eq_none : fault? .filter topic path = none ↔
    (∀ segment ∈ path, mentionsWildcard segment = true → segment = "+" ∨ segment = "#") ∧
      path.Pairwise fun segment _ => segment ≠ "#" := by
  induction path with
  | nil => simp [fault?]
  | cons segment path ih =>
    rw [List.forall_mem_cons, List.pairwise_cons]
    by_cases hs : segment = "+"
    · subst hs
      rw [fault?_plus, if_neg (by simp), ih]
      simp
    by_cases hm : segment = "#"
    · subst hm
      rw [fault?_hash, if_neg (by simp)]
      cases path with
      | nil => simp
      | cons later path =>
        rw [if_neg (by simp)]
        constructor
        · intro h; cases h
        · rintro ⟨-, hlast, -⟩
          exact absurd rfl (hlast later List.mem_cons_self)
    · rw [fault?_of_ne hs hm]
      by_cases hw : mentionsWildcard segment = true
      · simp [hw, hs, hm]
      · simp [hw, hm, ih]

theorem fault?_name_eq_none : fault? .name topic path = none ↔
    ∀ segment ∈ path, mentionsWildcard segment = false := by
  induction path with
  | nil => simp [fault?]
  | cons segment path ih =>
    rw [List.forall_mem_cons]
    by_cases hs : segment = "+"
    · subst hs
      simp [fault?_plus, show mentionsWildcard "+" = true from rfl]
    by_cases hm : segment = "#"
    · subst hm
      simp [fault?_hash, show mentionsWildcard "#" = true from rfl]
    · rw [fault?_of_ne hs hm]
      by_cases hw : mentionsWildcard segment = true
      · simp [hw]
      · simp [hw, ih]

theorem fault?_filter_of_name (h : fault? .name topic path = none) :
    fault? .filter topic path = none := by
  rw [fault?_name_eq_none] at h
  refine fault?_filter_eq_none.mpr ⟨fun segment hmem hw => ?_, List.pairwise_of_forall_mem_list ?_⟩
  · rw [h segment hmem] at hw
    cases hw
  · rintro segment hmem - - rfl
    cases h "#" hmem

end Fault

variable {role : Role} {text topic : String} {e : Error}

/-- A wildcard character is not the separator, so it stands in a segment. -/
theorem mentionsWildcard_iff : mentionsWildcard text = true ↔
    ∃ segment ∈ Dialect.mqtt.split text, mentionsWildcard segment = true := by
  have hsep : ∀ c, isWildcardChar c = true → c ≠ Dialect.mqtt.separator := by
    rintro c hc rfl
    cases hc
  simp only [mentionsWildcard, List.any_eq_true, Dialect.split, List.mem_map,
    exists_exists_and_eq_and, String.toList_ofList]
  constructor
  · rintro ⟨c, hmem, hc⟩
    obtain ⟨part, hpart, hmem⟩ := (exists_mem_splitOn (hsep c hc)).mpr hmem
    exact ⟨part, hpart, c, hmem, hc⟩
  · rintro ⟨part, hpart, c, hmem, hc⟩
    exact ⟨c, (exists_mem_splitOn (hsep c hc)).mp ⟨part, hpart, hmem⟩, hc⟩

theorem canonical_ne_empty : canonical text ≠ "" ↔ ∃ c ∈ text.toList, c ≠ '/' := by
  rw [Ne, canonical_eq_empty]
  simp [Dialect.mqtt]

theorem parse_eq_ok_iff : parse role text = .ok topic ↔ canonical text ≠ "" ∧
    fault? role (canonical text) (Dialect.mqtt.split (canonical text)) = none ∧
      canonical text = topic := by
  rw [parse]
  by_cases h : canonical text = ""
  · simp [h]
  · rw [if_neg h]
    split <;> simp_all

theorem parse_eq_error_empty_iff : parse role text = .error .empty ↔ canonical text = "" := by
  rw [parse]
  by_cases h : canonical text = ""
  · simp [h]
  · rw [if_neg h]
    split
    · next e he =>
      obtain ⟨i, hi, -⟩ := fault?_eq_some_iff.mp he
      have hne : e ≠ .empty := by rintro rfl; cases hi
      simp [h, hne]
    · simp [h]

theorem parse_eq_error_iff (he : e ≠ .empty) : parse role text = .error e ↔
    FirstFault role (canonical text) (Dialect.mqtt.split (canonical text)) e := by
  rw [← fault?_eq_some_iff, parse]
  by_cases h : canonical text = ""
  · have hnone : fault? role "" (Dialect.mqtt.split "") = none := by cases role <;> rfl
    simp [h, hnone, he.symm]
  · rw [if_neg h]
    split <;> simp_all

theorem exists_parse_iff : (∃ topic, parse role text = .ok topic) ↔
    (∃ c ∈ text.toList, c ≠ '/') ∧ fault? role (canonical text) (pathOf text) = none := by
  simp only [parse_eq_ok_iff, exists_and_left, exists_eq', and_true]
  rw [← canonical_ne_empty]
  exact and_congr_right fun hne => by rw [split_canonical hne]

theorem exists_parse_filter_iff : (∃ topic, parse .filter text = .ok topic) ↔ IsFilter text := by
  have halone := forall_mem_pathOf text
    (P := fun segment => mentionsWildcard segment = true → segment = "+" ∨ segment = "#")
    (by simp [mentionsWildcard])
  have hlast := pairwise_pathOf text (R := fun segment _ => segment ≠ "#") (by simp)
  rw [exists_parse_iff, fault?_filter_eq_none, halone, hlast]
  constructor
  · rintro ⟨hin, hal, hla⟩
    exact ⟨hin, hal, hla.imp fun h hs => by_contra fun ht => h ht hs⟩
  · rintro ⟨hin, hal, hla⟩
    exact ⟨hin, hal, hla.imp fun h ht hs => ht (h hs)⟩

theorem exists_parse_name_iff : (∃ topic, parse .name text = .ok topic) ↔ IsName text := by
  have hplain := forall_mem_pathOf text (P := fun segment => mentionsWildcard segment = false)
    (by simp [mentionsWildcard])
  have hall : mentionsWildcard text = false ↔
      ∀ segment ∈ Dialect.mqtt.split text, mentionsWildcard segment = false := by
    rw [← Bool.not_eq_true, mentionsWildcard_iff]
    simp
  rw [exists_parse_iff, fault?_name_eq_none, hplain, ← hall]
  exact ⟨fun h => ⟨h.1, h.2⟩, fun h => ⟨h.inhabited, h.plain⟩⟩

/-- `parse` accepts the texts of the grammar, with one result for both roles, and reports of any other
text that it is empty or which is the leftmost fault of its canonical text. -/
theorem parse_grammar (text : String) :
    ((∃ topic, parse .filter text = .ok topic) ↔ IsFilter text) ∧
    ((∃ topic, parse .name text = .ok topic) ↔ IsName text) ∧
    (∀ topic, parse .name text = .ok topic → parse .filter text = .ok topic) ∧
    (∀ topic, parse .name text ≠ .error (.notLast topic)) ∧
    ∀ role,
      (parse role text = .error .empty ↔ ∀ c ∈ text.toList, c = '/') ∧
      (∀ e, e ≠ .empty → (parse role text = .error e ↔
        FirstFault role (canonical text) (Dialect.mqtt.split (canonical text)) e)) ∧
      ∀ e subject, parse role text = .error e → e.subject? = some subject →
        subject = canonical text ∨ subject ∈ Dialect.mqtt.split (canonical text) := by
  refine ⟨exists_parse_filter_iff, exists_parse_name_iff, ?_, ?_, fun role => ⟨?_, ?_, ?_⟩⟩
  · intro topic h
    obtain ⟨hne, hfault, htopic⟩ := parse_eq_ok_iff.mp h
    exact parse_eq_ok_iff.mpr ⟨hne, fault?_filter_of_name hfault, htopic⟩
  · intro topic h
    obtain ⟨i, hi, -⟩ := (parse_eq_error_iff (by simp)).mp h
    cases hi with
    | notLast hrole => cases hrole
  · rw [parse_eq_error_empty_iff, canonical_eq_empty]; rfl
  · exact fun e he => parse_eq_error_iff he
  · intro e subject h hsubject
    have he : e ≠ .empty := by rintro rfl; cases hsubject
    exact ((parse_eq_error_iff he).mp h).subject_mem hsubject

-- dropped separators decide which segment is the last
example : parse .filter "#//" = .ok "#" := by decide

example : parse .filter "#//a" = .error (.notLast "#/a") := by decide

end TopicIndex.Topic
