import TopicIndex.Proofs.Extensional
import TopicIndex.Proofs.Ledger
import TopicIndex.Proofs.Recovery

/-! # Clients with topics of their own

Several clients change one index, each at topics that no other client uses. Of a schedule of their calls,
what is under a topic depends on the calls of its client alone (`Sound.valuesAt_run_of`), though the nodes
are shared. So a client sees its topics as if it were alone, and as the values under the topics make the
index (`Sound.eq_of_valuesAt`), all interleavings of the calls end in the same one. -/

namespace TopicIndex

universe u v w

variable {α : Type u} {ι : Type v}

/-- Calls in the order in which they are carried out, each with its client. -/
abbrev Schedule (ι : Type v) (α : Type u) := List (ι × Change α)

/-- Every call is about one topic, and no topic is in the calls of two clients. -/
structure Independent (calls : ι → List (Change α)) : Prop where
  topical : ∀ k, ∀ c ∈ calls k, c.topic? ≠ none
  apart : ∀ j k, j ≠ k → ∀ b ∈ calls j, ∀ c ∈ calls k, b.topic? ≠ c.topic?

namespace Schedule

def changes (z : Schedule ι α) : List (Change α) := z.map (·.2)

variable [DecidableEq ι]

/-- The calls of one client. -/
def of (k : ι) (z : Schedule ι α) : List (Change α) := (z.filter (·.1 = k)).map (·.2)

/-- Every client makes its calls, in their order. -/
def Interleaves (z : Schedule ι α) (calls : ι → List (Change α)) : Prop := ∀ k, z.of k = calls k

variable {z pre post : Schedule ι α} {calls : ι → List (Change α)}

theorem mem_of {k : ι} {c : Change α} : c ∈ z.of k ↔ (k, c) ∈ z := by
  simp only [of, List.mem_map, List.mem_filter, decide_eq_true_eq]
  constructor
  · rintro ⟨⟨j, b⟩, ⟨h, rfl⟩, rfl⟩
    exact h
  · exact fun h => ⟨(k, c), ⟨h, rfl⟩, rfl⟩

theorem Interleaves.mem_calls (hz : z.Interleaves calls) {x : ι × Change α} (hx : x ∈ z) :
    x.2 ∈ calls x.1 := by
  rw [← hz x.1]
  exact mem_of.mpr hx

theorem Interleaves.mem_changes (hz : z.Interleaves calls) {c : Change α} :
    c ∈ z.changes ↔ ∃ k, c ∈ calls k := by
  constructor
  · intro h
    obtain ⟨x, hx, rfl⟩ := List.mem_map.mp h
    exact ⟨x.1, hz.mem_calls hx⟩
  · rintro ⟨k, hk⟩
    rw [← hz k, mem_of] at hk
    exact List.mem_map_of_mem hk

/-- The calls about a topic are those of its client. -/
theorem filter_changes (hcalls : Independent calls) (hz : ∀ x ∈ z, x.2 ∈ calls x.1) {k : ι}
    {c : Change α} (hc : c ∈ calls k) {u : String} (hu : c.topic? = some u) :
    (z.changes.filter fun b => b.topic? = some u) = (z.of k).filter fun b => b.topic? = some u := by
  rw [changes, of, List.filter_map, List.filter_map, List.filter_filter]
  congr 1
  refine List.filter_congr fun x hx => ?_
  by_cases hxu : x.2.topic? = some u
  · have hk : x.1 = k := by
      by_contra hk
      exact hcalls.apart x.1 k hk x.2 (hz x hx) c hc (hxu.trans hu.symm)
    simp [hxu, hk]
  · simp [hxu]

omit [DecidableEq ι] in
theorem topic?_ne_none (hcalls : Independent calls) (hz : ∀ x ∈ z, x.2 ∈ calls x.1) :
    ∀ c ∈ z.changes, c.topic? ≠ none := by
  intro c hc
  obtain ⟨x, hx, rfl⟩ := List.mem_map.mp hc
  exact hcalls.topical x.1 x.2 (hz x hx)

theorem topic?_of_ne_none (hcalls : Independent calls) (hz : ∀ x ∈ z, x.2 ∈ calls x.1) (k : ι) :
    ∀ c ∈ z.of k, c.topic? ≠ none := fun c hc =>
  topic?_ne_none hcalls hz c (List.mem_map_of_mem (mem_of.mp hc))

end Schedule

namespace Index

variable [BEq α] {t : Index α}

theorem event?_carryOut_insert (t : Index α) (u : String) (v : α) :
    (t.carryOut (.insert u v)).2.event? = if t.dialect.Refuses t.guard u then none
      else some (.inserted u !((t.valuesAt u).any (· == v))) := by
  rw [carryOut, apply, misplacement?_eq]
  by_cases h : t.dialect.Refuses t.guard u
  · rw [if_pos h, if_pos h]; rfl
  · rw [if_neg h, if_neg h]; rfl

namespace Sound

variable [DecidableEq ι] {calls : ι → List (Change α)} {z z' : Schedule ι α}

theorem valuesAt_run_of (h : t.Sound) (hcalls : Independent calls) (hz : ∀ x ∈ z, x.2 ∈ calls x.1)
    {k : ι} {c : Change α} (hc : c ∈ calls k) {u : String} (hu : c.topic? = some u) :
    (t.run z.changes).valuesAt u = (t.run (z.of k)).valuesAt u := by
  rw [h.valuesAt_run_filter (Schedule.topic?_ne_none hcalls hz),
    h.valuesAt_run_filter (Schedule.topic?_of_ne_none hcalls hz k),
    Schedule.filter_changes hcalls hz hc hu]

theorem event?_run_of (h : t.Sound) (hcalls : Independent calls) (hz : ∀ x ∈ z, x.2 ∈ calls x.1)
    {k : ι} {u : String} {v : α} (hc : .insert u v ∈ calls k) :
    ((t.run z.changes).carryOut (.insert u v)).2.event? =
      ((t.run (z.of k)).carryOut (.insert u v)).2.event? := by
  rw [event?_carryOut_insert, event?_carryOut_insert, h.valuesAt_run_of hcalls hz hc rfl]
  simp only [dialect_run, guard_run]

/-- At a topic that is in nobody's calls nothing happens. -/
theorem valuesAt_run_eq_self (h : t.Sound) {cs : List (Change α)} (hcs : ∀ c ∈ cs, c.topic? ≠ none)
    {u : String} (hu : ∀ c ∈ cs, c.topic? ≠ some u) : (t.run cs).valuesAt u = t.valuesAt u := by
  have hnone : (cs.filter fun c => c.topic? = some u) = [] := by simpa using hu
  rw [h.valuesAt_run_filter hcs, hnone]; rfl

theorem run_eq_run (h : t.Sound) (hcalls : Independent calls) (hz : z.Interleaves calls)
    (hz' : z'.Interleaves calls) : t.run z'.changes = t.run z.changes := by
  refine (h.run _).eq_of_valuesAt (h.run _) (by simp) (by simp) fun u => ?_
  by_cases hu : ∃ k, ∃ c ∈ calls k, c.topic? = some u
  · obtain ⟨k, c, hc, hu⟩ := hu
    rw [h.valuesAt_run_of hcalls (fun _ => hz'.mem_calls) hc hu,
      h.valuesAt_run_of hcalls (fun _ => hz.mem_calls) hc hu, hz k, hz' k]
  · have hno : ∀ {y : Schedule ι α}, y.Interleaves calls →
        (t.run y.changes).valuesAt u = t.valuesAt u := by
      intro y hy
      refine h.valuesAt_run_eq_self (Schedule.topic?_ne_none hcalls fun _ => hy.mem_calls) fun c hc hcu => ?_
      obtain ⟨k, hk⟩ := hy.mem_changes.mp hc
      exact hu ⟨k, c, hk, hcu⟩
    rw [hno hz, hno hz']

end Sound

end Index

namespace Shared

/-- The shared index after changes that each take the lock for themselves. -/
def run [BEq α] [ToString α] (s : Shared α) (cs : List (Change α)) : Shared α :=
  (s.serveAll (cs.map fun c => .single (.change c))).1

theorem ext {s s' : Shared α} (hindex : s.index = s'.index) (hpoisoned : s.poisoned = s'.poisoned) :
    s = s' := by
  obtain ⟨⟨t, p⟩⟩ := s
  obtain ⟨⟨t', p'⟩⟩ := s'
  rw [index, index, Lock.recover_acquire, Lock.recover_acquire] at hindex
  obtain rfl : t = t' := hindex
  obtain rfl : p = p' := hpoisoned
  rfl

variable [BEq α] [ToString α]

theorem index_run (s : Shared α) (cs : List (Change α)) : (s.run cs).index = s.index.run cs := by
  have hrequests : (cs.map fun c => Step.single (.change c)).flatMap (·.requests) =
      cs.map Request.change := by
    rw [List.flatMap_map, List.map_eq_flatMap]; rfl
  rw [run, index_serveAll, hrequests, Index.serveAll_change]

/-- Which of the changes are refused does not depend on their order. -/
theorem poisoned_run (s : Shared α) (cs : List (Change α)) : (s.run cs).poisoned = true ↔
    s.poisoned = true ∨ ∃ c ∈ cs, (Step.single (.change c)).Fails s.index.dialect s.index.guard := by
  have hrenew : ∀ cs : List (Change α), Step.renew ∉ cs.map fun c => Step.single (.change c) := by simp
  rw [run, poisoned_serveAll, failedSince_iff (hrenew cs)]
  simp [hrenew cs]

variable [DecidableEq ι] {calls : ι → List (Change α)} {z z' : Schedule ι α}

theorem run_eq_run {s : Shared α} (h : s.index.Sound) (hcalls : Independent calls)
    (hz : z.Interleaves calls) (hz' : z'.Interleaves calls) : s.run z'.changes = s.run z.changes := by
  refine ext ?_ ?_
  · rw [index_run, index_run, h.run_eq_run hcalls hz hz']
  · rw [Bool.eq_iff_iff, poisoned_run, poisoned_run]
    simp only [hz.mem_changes, hz'.mem_changes]

theorem replies_run (s : Shared α) (cs : List (Change α)) (c : Change α) :
    ((s.run cs).serve (.single (.change c))).2.replies = [((s.index.run cs).carryOut c).2] := by
  rw [replies_serve _ (by simp), index_run]; rfl

end Shared

/-- Along a schedule, a client reads its topics and has its insertions reported as after its own calls
alone; `get` and `report` are what the store tells after a list of changes. -/
structure Undisturbed [DecidableEq ι] {β : Type u} {γ : Type w} (calls : ι → List (Change α))
    (z : Schedule ι α) (get : List (Change α) → String → β)
    (report : List (Change α) → Change α → γ) : Prop where
  get : ∀ pre post : Schedule ι α, z = pre ++ post → ∀ k, ∀ c ∈ calls k, ∀ u, c.topic? = some u →
    get pre.changes u = get (pre.of k) u
  report : ∀ (pre : Schedule ι α) (k : ι) (u : String) (v : α) (post : Schedule ι α),
    z = pre ++ (k, .insert u v) :: post →
      report pre.changes (.insert u v) = report (pre.of k) (.insert u v)

/-- Clients with topics of their own do not disturb each other, on an index or on a shared one: all
interleavings of their calls end alike, and what they are told on the way is what they would be told
without the others. -/
theorem clients_undisturbed [BEq α] [ToString α] [DecidableEq ι] (d : Dialect) (g : Guard)
    (cs : List (Change α)) (poisoned : Bool) {calls : ι → List (Change α)} (hcalls : Independent calls)
    {z : Schedule ι α} (hz : z.Interleaves calls) :
    let t := (Index.empty d g).run cs
    let s : Shared α := ⟨⟨t, poisoned⟩⟩
    (∀ z' : Schedule ι α, z'.Interleaves calls →
      t.run z'.changes = t.run z.changes ∧ s.run z'.changes = s.run z.changes) ∧
    Undisturbed calls z (fun cs u => (t.run cs).valuesAt u)
      (fun cs c => ((t.run cs).carryOut c).2.event?) ∧
    Undisturbed calls z (fun cs u => (s.run cs).answer (.valuesAt u))
      (fun cs c => ((s.run cs).serve (.single (.change c))).2.replies.filterMap Reply.event?) := by
  intro t s
  have ht : t.Sound := Index.sound_run d g cs
  have hs : s.index = t := Lock.recover_acquire _
  have hmem : ∀ {pre post : Schedule ι α}, z = pre ++ post → ∀ x ∈ pre, x.2 ∈ calls x.1 :=
    fun hpre x hx => hz.mem_calls (hpre ▸ List.mem_append_left _ hx)
  have hinsert : ∀ {pre post : Schedule ι α} {k : ι} {u : String} {v : α},
      z = pre ++ (k, .insert u v) :: post → .insert u v ∈ calls k := fun hpre =>
    hz.mem_calls (hpre ▸ List.mem_append_right _ List.mem_cons_self)
  refine ⟨fun z' hz' => ⟨ht.run_eq_run hcalls hz hz', Shared.run_eq_run (hs ▸ ht) hcalls hz hz'⟩,
    ⟨?_, ?_⟩, ?_, ?_⟩
  · exact fun pre post hpre k c hc u hu => ht.valuesAt_run_of hcalls (hmem hpre) hc hu
  · exact fun pre k u v post hpre => ht.event?_run_of hcalls (hmem hpre) (hinsert hpre)
  · intro pre post hpre k c hc u hu
    have hget : ∀ cs, (s.run cs).answer (.valuesAt u) = .listed ((t.run cs).valuesAt u) := by
      intro cs
      rw [Shared.answer_eq _ (by simp), Shared.index_run, hs]; rfl
    rw [hget, hget, ht.valuesAt_run_of hcalls (hmem hpre) hc hu]
  · intro pre k u v post hpre
    have hevent := ht.event?_run_of hcalls (hmem hpre) (hinsert hpre)
    simp only [Shared.replies_run, hs, List.filterMap_cons, hevent]

theorem clients_undisturbed_prefix :
    let calls : Bool → List (Change Nat) := fun k =>
      if k then [.insert "a/b" 1, .erase "a/b" 1] else [.insert "a" 2, .insert "a" 2]
    let z : Schedule Bool Nat := [(true, .insert "a/b" 1), (false, .insert "a" 2),
      (true, .erase "a/b" 1), (false, .insert "a" 2)]
    let z' : Schedule Bool Nat := [(false, .insert "a" 2), (false, .insert "a" 2),
      (true, .insert "a/b" 1), (true, .erase "a/b" 1)]
    let t : Index Nat := Index.empty .mqtt .strict
    Independent calls ∧ z.Interleaves calls ∧ z'.Interleaves calls ∧
      t.run z'.changes = t.run z.changes ∧ (t.run (z.of false)).valuesAt "a" = [2] := by
  intro calls z z' t
  have hcalls : Independent calls := by
    refine ⟨?_, ?_⟩
    · rintro (_ | _) <;> simp [calls, Change.topic?]
    · rintro (_ | _) (_ | _) <;> simp [calls, Change.topic?]
  have hz : z.Interleaves calls := by rintro (_ | _) <;> rfl
  have hz' : z'.Interleaves calls := by rintro (_ | _) <;> rfl
  exact ⟨hcalls, hz, hz', ((clients_undisturbed .mqtt .strict [] false hcalls hz).1 z' hz').1, by decide⟩

end TopicIndex
