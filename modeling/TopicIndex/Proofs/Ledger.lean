import TopicIndex.Proofs.Distinct
import TopicIndex.Proofs.Sound

/-! # Runs of changes against a plain map

A `Ledger` keeps a list of values for every topic and knows nothing of segments. One change does to the
lists of a sound index what it does to the ledger (`Sound.valuesAt_after`), hence a run does
(`valuesAt_run`); insertions only add at the end of the lists (`Sound.exists_valuesAt_run_insertions`).
What every change keeps of a ledger, runs keep (`Ledger.ofChanges_induction`): nothing under a refused
topic, and lists without equal values. -/

namespace TopicIndex

universe u

variable {α : Type u} [BEq α]

/-- A plain map from topics to the values under them. -/
abbrev Ledger (α : Type u) := String → List α

namespace Ledger

def after (d : Dialect) (g : Guard) (m : Ledger α) : Change α → Ledger α
  | .insert topic v =>
    if d.Refuses g topic then m
    else Function.update m topic (if (m topic).any (· == v) then m topic else m topic ++ [v])
  | .assign topic v => if d.Refuses g topic then m else Function.update m topic [v]
  | .erase topic v => Function.update m topic ((m topic).filter fun x => !(x == v))
  | .vacate topic => Function.update m topic []
  | .purge v => fun topic => (m topic).filter fun x => !(x == v)
  | .reset => fun _ => []

/-- The ledger after the changes, from an empty one. -/
def ofChanges (d : Dialect) (g : Guard) (cs : List (Change α)) : Ledger α :=
  cs.foldl (after d g) fun _ => []

section Runs

variable {d : Dialect} {g : Guard} {m : Ledger α}

/-- What every change keeps holds after a run. -/
theorem ofChanges_induction {P : Ledger α → Prop} (nil : P fun _ => [])
    (after : ∀ m c, P m → P (after d g m c)) (cs : List (Change α)) : P (ofChanges d g cs) := by
  suffices hm : ∀ m, P m → P (cs.foldl (Ledger.after d g) m) from hm _ nil
  induction cs with
  | nil => exact fun m hm => hm
  | cons c cs ih => exact fun m hm => ih _ (after m c hm)

/-- A change about one topic leaves the lists of the others alone. -/
theorem after_of_ne {c : Change α} {topic u : String} (hc : c.topic? = some topic) (hu : u ≠ topic) :
    after d g m c u = m u := by
  cases c with
  | insert | assign =>
    cases hc; rw [after]; split
    · rfl
    · exact Function.update_of_ne hu _ _
  | erase | vacate => cases hc; exact Function.update_of_ne hu _ _
  | purge | reset => cases hc

/-- What a change makes of a list depends on that list only. -/
theorem after_congr {m' : Ledger α} {u : String} (h : m u = m' u) (c : Change α) :
    after d g m c u = after d g m' c u := by
  have hupdate : ∀ topic (f : List α → List α), Function.update m topic (f (m topic)) u =
      Function.update m' topic (f (m' topic)) u := by
    intro topic f
    by_cases hu : u = topic
    · subst hu; rw [Function.update_self, Function.update_self, h]
    · rw [Function.update_of_ne hu, Function.update_of_ne hu, h]
  cases c with
  | insert topic v => rw [after, after]; split; exacts [h, hupdate topic (adjoin v)]
  | assign topic v => rw [after, after]; split; exacts [h, hupdate topic fun _ => [v]]
  | erase topic v => exact hupdate topic (expunge v)
  | vacate topic => exact hupdate topic fun _ => []
  | purge v => exact congrArg (expunge v) h
  | reset => rfl

/-- Of changes about single topics, those about a topic make its list. -/
theorem foldl_after_filter {m' : Ledger α} {cs : List (Change α)} (hcs : ∀ c ∈ cs, c.topic? ≠ none)
    {u : String} (h : m u = m' u) : cs.foldl (after d g) m u =
      (cs.filter fun c => c.topic? = some u).foldl (after d g) m' u := by
  induction cs generalizing m m' with
  | nil => exact h
  | cons c cs ih =>
    obtain ⟨hc, hcs⟩ := List.forall_mem_cons.mp hcs
    by_cases hcu : c.topic? = some u
    · rw [List.filter_cons_of_pos (by simpa using hcu), List.foldl_cons, List.foldl_cons]
      exact ih hcs (after_congr h c)
    · obtain ⟨topic, htopic⟩ := Option.ne_none_iff_exists'.mp hc
      rw [List.filter_cons_of_neg (by simpa using hcu), List.foldl_cons]
      refine ih hcs ?_
      rw [after_of_ne htopic fun hu => hcu (by rw [htopic, hu]), h]

theorem after_of_refuses {topic : String} (h : d.Refuses g topic) (hm : m topic = [])
    (c : Change α) : after d g m c topic = [] := by
  have hne : ∀ u, ¬ d.Refuses g u → topic ≠ u := fun u hu hut => hu (hut ▸ h)
  cases c with
  | insert u v | assign u v =>
    rw [after]
    split
    · exact hm
    · next hu => rw [Function.update_of_ne (hne u hu), hm]
  | erase u v | vacate u =>
    rw [after]
    by_cases hu : topic = u
    · subst hu; simp [hm]
    · rw [Function.update_of_ne hu, hm]
  | purge v =>
    show (m topic).filter _ = []
    rw [hm]; rfl
  | reset => rfl

/-- Nothing gets under a topic where storing is refused. -/
theorem ofChanges_of_refuses {topic : String} (h : d.Refuses g topic) (cs : List (Change α)) :
    ofChanges d g cs topic = [] :=
  ofChanges_induction (P := fun m => m topic = []) rfl (fun _ c hm => after_of_refuses h hm c) cs

theorem distinct_after (hm : ∀ u, Distinct (m u)) (c : Change α) (u : String) :
    Distinct (after d g m c u) := by
  have hupdate : ∀ topic vs, Distinct vs → Distinct (Function.update m topic vs u) := by
    intro topic vs hvs
    by_cases hu : u = topic
    · subst hu; rwa [Function.update_self]
    · rw [Function.update_of_ne hu]; exact hm u
  cases c with
  | insert topic v =>
    rw [after]
    split
    exacts [hm u, hupdate _ _ ((hm topic).adjoin v)]
  | assign topic v =>
    rw [after]
    split
    exacts [hm u, hupdate _ _ (List.pairwise_singleton _ _)]
  | erase topic v => exact hupdate _ _ ((hm topic).expunge v)
  | vacate topic => exact hupdate _ _ .nil
  | purge v => exact (hm u).expunge v
  | reset => exact .nil

theorem distinct_ofChanges (d : Dialect) (g : Guard) (cs : List (Change α)) (u : String) :
    Distinct (ofChanges d g cs u) :=
  ofChanges_induction (P := fun m => ∀ u, Distinct (m u)) (fun _ => .nil)
    (fun _ c hm => distinct_after hm c) cs u

end Runs

end Ledger

namespace Index

variable {t : Index α}

def insertions (es : List (String × α)) : List (Change α) := es.map fun e => .insert e.1 e.2

namespace Sound

/-- A change does to the lists of a sound index what it does to the ledger of these lists. -/
theorem valuesAt_after (h : t.Sound) (c : Change α) :
    (t.after c).valuesAt = Ledger.after t.dialect t.guard t.valuesAt c := by
  cases c with
  | insert topic v => rw [after_insert, Ledger.after]; split; exacts [rfl, h.valuesAt_alter _ _]
  | assign topic v => rw [after_assign, Ledger.after]; split; exacts [rfl, h.valuesAt_alter _ _]
  | erase topic v => rw [after_erase h.pruned]; exact h.valuesAt_alter _ _
  | vacate topic => rw [after_vacate h.pruned]; exact h.valuesAt_alter _ _
  | purge v => funext u; exact Node.valuesAt_purge h.ordered v _
  | reset => funext u; exact Node.valuesAt_empty _

theorem valuesAt_run (h : t.Sound) (cs : List (Change α)) :
    (t.run cs).valuesAt = cs.foldl (Ledger.after t.dialect t.guard) t.valuesAt := by
  induction cs generalizing t with
  | nil => rfl
  | cons c cs ih =>
    rw [run_cons, ih (h.after c), dialect_after, guard_after, h.valuesAt_after, List.foldl_cons]

theorem valuesAt_after_of_ne (h : t.Sound) {c : Change α} {topic u : String}
    (hc : c.topic? = some topic) (hu : u ≠ topic) : (t.after c).valuesAt u = t.valuesAt u := by
  rw [h.valuesAt_after, Ledger.after_of_ne hc hu]

/-- Of changes about single topics, those about a topic decide what is under it. -/
theorem valuesAt_run_filter (h : t.Sound) {cs : List (Change α)} (hcs : ∀ c ∈ cs, c.topic? ≠ none)
    (u : String) : (t.run cs).valuesAt u =
      (t.run (cs.filter fun c => c.topic? = some u)).valuesAt u := by
  rw [h.valuesAt_run, h.valuesAt_run, Ledger.foldl_after_filter hcs rfl]

theorem exists_valuesAt_insert (h : t.Sound) (topic u : String) (v : α) :
    ∃ ws, (t.after (.insert topic v)).valuesAt u = t.valuesAt u ++ ws ∧
      ∀ w ∈ ws, (u, w) = (topic, v) := by
  have hself : ∃ ws : List α, t.valuesAt u = t.valuesAt u ++ ws ∧ ∀ w ∈ ws, (u, w) = (topic, v) :=
    ⟨[], (List.append_nil _).symm, nofun⟩
  rw [h.valuesAt_after, Ledger.after]
  split
  · exact hself
  · by_cases hu : u = topic
    · subst hu
      rw [Function.update_self]
      split
      · exact hself
      · exact ⟨[v], rfl, fun w hw => by rw [List.mem_singleton.mp hw]⟩
    · rw [Function.update_of_ne hu]
      exact hself

theorem exists_valuesAt_run_insertions (h : t.Sound) (es : List (String × α)) (u : String) :
    ∃ ws, (t.run (insertions es)).valuesAt u = t.valuesAt u ++ ws ∧ ∀ w ∈ ws, (u, w) ∈ es := by
  induction es generalizing t with
  | nil => exact ⟨[], (List.append_nil _).symm, nofun⟩
  | cons e es ih =>
    have hcons : t.run (insertions (e :: es)) = (t.after (.insert e.1 e.2)).run (insertions es) := rfl
    obtain ⟨ws, hws, hfirst⟩ := h.exists_valuesAt_insert e.1 u e.2
    obtain ⟨xs, hxs, hrest⟩ := ih (h.after (.insert e.1 e.2))
    refine ⟨ws ++ xs, by rw [hcons, hxs, hws, List.append_assoc], fun w hw => ?_⟩
    rcases List.mem_append.mp hw with hw | hw
    · rw [hfirst w hw]
      exact List.mem_cons_self
    · exact List.mem_cons_of_mem _ (hrest w hw)

theorem exists_beq_insert (h : t.Sound) {topic : String} (hr : ¬ t.dialect.Refuses t.guard topic) {v : α}
    (hv : (v == v) = true) : ∃ x ∈ (t.after (.insert topic v)).valuesAt topic, (x == v) = true := by
  rw [h.valuesAt_after, Ledger.after, if_neg hr, Function.update_self]
  split
  · next hany => exact List.any_eq_true.mp hany
  · exact ⟨v, List.mem_append_right _ (List.mem_singleton_self v), hv⟩

/-- Later insertions leave in place what earlier ones have put there. -/
theorem exists_beq_run_insertions (h : t.Sound) {es : List (String × α)} {e : String × α} (he : e ∈ es)
    (hr : ¬ t.dialect.Refuses t.guard e.1) (hv : (e.2 == e.2) = true) :
    ∃ x ∈ (t.run (insertions es)).valuesAt e.1, (x == e.2) = true := by
  induction es generalizing t with
  | nil => cases he
  | cons e' es ih =>
    have hcons : t.run (insertions (e' :: es)) = (t.after (.insert e'.1 e'.2)).run (insertions es) := rfl
    rw [hcons]
    rcases List.mem_cons.mp he with rfl | he
    · obtain ⟨x, hx, hxe⟩ := h.exists_beq_insert hr hv
      obtain ⟨ws, hws, -⟩ := (h.after (.insert e.1 e.2)).exists_valuesAt_run_insertions es e.1
      exact ⟨x, by rw [hws]; exact List.mem_append_left _ hx, hxe⟩
    · exact ih (h.after _) he (by rwa [dialect_after, guard_after])

/-- A stored value that equals itself has exactly one equal among all values. -/
theorem countP_all [PartialEquivBEq α] (h : t.Sound) {u : String} {v : α} (hv : v ∈ t.valuesAt u)
    (hvv : (v == v) = true) : t.all.countP (· == v) = 1 :=
  (among_of_mem (h.mem_allValues.mpr ⟨u, hv⟩)).countP_eraseDups hvv

end Sound

theorem valuesAt_run_empty (d : Dialect) (g : Guard) (cs : List (Change α)) :
    ((empty d g : Index α).run cs).valuesAt = Ledger.ofChanges d g cs := by
  rw [(sound_empty d g).valuesAt_run cs, Ledger.ofChanges]
  congr 1
  funext u
  exact Node.valuesAt_empty _

/-- What insertions have put under a topic is named by them. -/
theorem mem_of_mem_run_insertions {d : Dialect} {g : Guard} (es : List (String × α)) {u : String} {w : α}
    (hw : w ∈ ((empty d g).run (insertions es)).valuesAt u) : (u, w) ∈ es := by
  obtain ⟨ws, hws, hadded⟩ := (sound_empty d g).exists_valuesAt_run_insertions es u
  have hnone : (empty d g : Index α).valuesAt u = [] := Node.valuesAt_empty _
  rw [hws, hnone, List.nil_append] at hw
  exact hadded w hw

/-- A strict index has nothing at a topic with the multi-level token before its end. -/
theorem isMisplaced_of_valuesAt {d : Dialect} {cs : List (Change α)} {u : String}
    (h : ((empty d .strict : Index α).run cs).valuesAt u ≠ []) : d.isMisplaced (d.split u) = false := by
  rw [valuesAt_run_empty] at h
  by_contra hm
  refine h (Ledger.ofChanges_of_refuses ⟨rfl, ?_⟩ cs)
  simpa [Dialect.isMisplaced] using hm

/-- After any changes an index holds what a plain map of topics holds after the same changes. -/
theorem run_refines_ledger [PartialEquivBEq α] (d : Dialect) (g : Guard) (cs : List (Change α)) :
    let t := (empty d g : Index α).run cs
    let m := Ledger.ofChanges d g cs
    (∀ u, t.valuesAt u = m u) ∧
    (∀ u topic, t.path u = t.path topic → u = topic) ∧
    (∀ c topic, c.topic? = some topic → ∀ u ≠ topic, (t.after c).valuesAt u = t.valuesAt u) ∧
    (∃ topics : List String, topics.Nodup ∧ (∀ u, u ∈ topics ↔ m u ≠ []) ∧
      t.size = (topics.map fun u => (m u).length).sum) ∧
    (∀ u, ∀ v ∈ m u, (v == v) = true → t.all.countP (· == v) = 1) ∧
    ∀ v ∈ t.all, ∃ u, v ∈ m u := by
  intro t m
  have ht : t.Sound := sound_run d g cs
  have hm : t.valuesAt = m := valuesAt_run_empty d g cs
  rw [← hm]
  exact ⟨fun u => rfl, fun u topic => t.dialect.split_inj.mp,
    fun c topic hc u hu => ht.valuesAt_after_of_ne hc hu, ht.size_eq_sum,
    fun u v hv => ht.countP_all hv, fun v hv => ht.mem_allValues.mp (mem_of_mem_eraseDups hv)⟩

theorem run_refines_ledger_nested :
    let t := (empty .mqtt .strict : Index Nat).run
      [.insert "a" 1, .insert "a/" 2, .insert "a/#/b" 3, .insert "a/" 2, .erase "a" 1]
    t.valuesAt "a/" = [2] ∧ t.valuesAt "a" = [] ∧ t.valuesAt "a/#/b" = [] := by
  intro t
  have h := (run_refines_ledger .mqtt .strict
    [.insert "a" 1, .insert "a/" 2, .insert "a/#/b" 3, .insert "a/" 2, .erase "a" 1]).1
  exact ⟨(h "a/").trans (by decide), (h "a").trans (by decide), (h "a/#/b").trans (by decide)⟩

end Index

end TopicIndex
