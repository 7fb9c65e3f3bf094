import Mathlib.Data.List.Forall2
import TopicIndex.Proofs.Sound
import TopicIndex.Shared

/-! # A poisoned lock makes no difference

The steps of a shared index are requests to the index behind the lock (`Step.requests`), and it serves
them as the index alone would, whether or not the lock is poisoned: one step does (`index_serve`,
`replies_serve`), hence a run does (`index_serveAll`, `replies_serveAll`). Only the lone inspection shows
the lock (`Echoes`). The lock is poisoned where a writer has failed since the index was last taken out
(`poisoned_serveAll`). -/

namespace TopicIndex

universe u

variable {α : Type u}

/-- The topic under which a request stores a value. -/
def Request.storesAt? : Request α → Option String
  | .change (.insert topic _) | .change (.assign topic _) => some topic
  | .subscribe text _ => (Topic.parse .filter text).toOption
  | .change (.erase ..) | .change (.vacate _) | .change (.purge _) | .change .reset | .ask _ => none

namespace Index

variable [BEq α] [ToString α]

theorem exists_run_serve (t : Index α) (r : Request α) : ∃ cs, (t.serve r).1 = t.run cs := by
  cases r with
  | change c => exact ⟨[c], carryOut_fst t c⟩
  | ask q => exact ⟨[], rfl⟩
  | subscribe text v =>
    rw [serve]
    split
    · next topic _ => exact ⟨[.insert topic v], carryOut_fst t _⟩
    · exact ⟨[], rfl⟩

theorem exists_run_serveAll (t : Index α) (rs : List (Request α)) :
    ∃ cs, (t.serveAll rs).1 = t.run cs := by
  induction rs generalizing t with
  | nil => exact ⟨[], rfl⟩
  | cons r rs ih =>
    obtain ⟨cs, hcs⟩ := exists_run_serve t r
    obtain ⟨cs', hcs'⟩ := ih (t.serve r).1
    refine ⟨cs ++ cs', hcs'.trans ?_⟩
    rw [hcs, run, run, run, List.foldl_append]

theorem dialect_serveAll (t : Index α) (rs : List (Request α)) :
    (t.serveAll rs).1.dialect = t.dialect := by
  obtain ⟨cs, h⟩ := exists_run_serveAll t rs
  rw [h, dialect_run]

theorem guard_serveAll (t : Index α) (rs : List (Request α)) : (t.serveAll rs).1.guard = t.guard := by
  obtain ⟨cs, h⟩ := exists_run_serveAll t rs
  rw [h, guard_run]

end Index

namespace Shared

/-- The requests of a step, as the index alone would get them. -/
def Step.requests : Step α → List (Request α)
  | .single r => [r]
  | .write rs => rs
  | .read qs => qs.map .ask
  | .renew => []
  | .failWriting topic v => [.change (.insert topic v)]

/-- What a response says to each of the requests. -/
def Response.replies : Response α → List (Reply α)
  | .single r => [r]
  | .batch rs => rs
  | .renewed _ => []
  | .failed event status => [.changed event status]

/-- A reply of the shared index beside that of the index: an inspection shows the lock as well. -/
inductive Echoes : Reply α → Reply α → Prop
  | same (r : Reply α) : Echoes r r
  | inspected (poisoned : Bool) (text? : Option String) :
      Echoes (.answered (.inspection (text?.map (inspection poisoned))))
        (.answered (.inspection text?))

/-- A writer fails while it holds the lock for this step. -/
def Step.Fails (d : Dialect) (g : Guard) : Step α → Prop
  | .single r => ∃ topic, r.storesAt? = some topic ∧ d.Refuses g topic
  | .failWriting .. => True
  | .write _ | .read _ | .renew => False

/-- Some writer has failed since the index was last taken out. -/
def FailedSince (d : Dialect) (g : Guard) (steps : List (Step α)) : Prop :=
  ∃ pre step post, steps = pre ++ step :: post ∧ step.Fails d g ∧ .renew ∉ post

theorem failedSince_cons {d : Dialect} {g : Guard} {step : Step α} {steps : List (Step α)} :
    FailedSince d g (step :: steps) ↔
      (step.Fails d g ∧ .renew ∉ steps) ∨ FailedSince d g steps := by
  constructor
  · rintro ⟨pre, x, post, h, hx, hpost⟩
    cases pre with
    | nil =>
      obtain ⟨rfl, rfl⟩ := List.cons.inj h
      exact .inl ⟨hx, hpost⟩
    | cons y pre => exact .inr ⟨pre, x, post, (List.cons.inj h).2, hx, hpost⟩
  · rintro (⟨hstep, hsteps⟩ | ⟨pre, x, post, rfl, hx, hpost⟩)
    · exact ⟨[], step, steps, rfl, hstep, hsteps⟩
    · exact ⟨step :: pre, x, post, rfl, hx, hpost⟩

theorem failedSince_iff {d : Dialect} {g : Guard} {steps : List (Step α)} (h : .renew ∉ steps) :
    FailedSince d g steps ↔ ∃ step ∈ steps, step.Fails d g := by
  constructor
  · rintro ⟨pre, step, post, rfl, hstep, -⟩
    exact ⟨step, List.mem_append_right _ List.mem_cons_self, hstep⟩
  · rintro ⟨step, hmem, hstep⟩
    obtain ⟨pre, post, rfl⟩ := List.append_of_mem hmem
    exact ⟨pre, step, post, rfl, hstep,
      fun hpost => h (List.mem_append_right _ (List.mem_cons_of_mem _ hpost))⟩

theorem Echoes.event? {xs ys : List (Reply α)} (h : List.Forall₂ Echoes xs ys) :
    xs.filterMap Reply.event? = ys.filterMap Reply.event? := by
  induction h with
  | nil => rfl
  | cons h _ ih =>
    cases h with
    | same r => rw [List.filterMap_cons, List.filterMap_cons, ih]
    | inspected poisoned text? => exact ih

@[simp] theorem index_written (s : Shared α) (t : Index α) (failed : Bool) :
    (s.written t failed).index = t := by
  rw [index, Lock.recover_acquire]; rfl

@[simp] theorem poisoned_written (s : Shared α) (t : Index α) (failed : Bool) :
    (s.written t failed).poisoned = (s.poisoned || failed) := rfl

variable [BEq α] [ToString α]

theorem answer_eq (s : Shared α) {q : Query} (hq : q ≠ .inspect) : s.answer q = s.index.answer q := by
  cases q with
  | inspect => exact absurd rfl hq
  | _ => rfl

theorem serve_single (s : Shared α) {r : Request α} (hr : ∀ q, r ≠ .ask q) :
    s.serve (.single r) = (s.written (s.index.serve r).1 (isFailure (s.index.serve r).2),
      .single (s.index.serve r).2) := by
  cases r with
  | ask q => exact absurd rfl (hr q)
  | change c => rfl
  | subscribe text v => rfl

/-! ## One step -/

theorem index_serve (s : Shared α) (step : Step α) :
    (s.serve step).1.index = (s.index.serveAll step.requests).1 := by
  cases step with
  | single r =>
    cases r with
    | ask q => rfl
    | change c => exact index_written _ _ _
    | subscribe text v => exact index_written _ _ _
  | write rs => exact index_written _ _ _
  | read qs => rw [Step.requests, Index.serveAll_ask]; rfl
  | renew => rfl
  | failWriting topic v =>
    show (s.serve (.failWriting topic v)).1.index = (s.index.carryOut (.insert topic v)).1
    rw [serve, Index.carryOut]
    cases s.index.apply (.insert topic v) <;> exact index_written _ _ _

theorem replies_serve (s : Shared α) {step : Step α} (hstep : step ≠ .single (.ask .inspect)) :
    (s.serve step).2.replies = (s.index.serveAll step.requests).2 := by
  cases step with
  | single r =>
    cases r with
    | ask q =>
      have hq : q ≠ .inspect := fun hq => hstep (hq ▸ rfl)
      show [Reply.answered (s.answer q)] = [Reply.answered (s.index.answer q)]
      rw [answer_eq s hq]
    | change c => rfl
    | subscribe text v => rfl
  | write rs => rfl
  | read qs => rw [Step.requests, Index.serveAll_ask]; rfl
  | renew => rfl
  | failWriting topic v =>
    show (s.serve (.failWriting topic v)).2.replies = [(s.index.carryOut (.insert topic v)).2]
    rw [serve, Index.carryOut]
    cases s.index.apply (.insert topic v) <;> rfl

theorem echoes_serve (s : Shared α) (step : Step α) :
    List.Forall₂ Echoes (s.serve step).2.replies (s.index.serveAll step.requests).2 := by
  by_cases hstep : step = .single (.ask .inspect)
  · subst hstep
    exact .cons (.inspected s.poisoned s.index.inspect?) .nil
  · rw [replies_serve s hstep]
    exact List.forall₂_same.mpr fun r _ => .same r

/-- Inspections apart, a response does not depend on whether the lock is poisoned. -/
theorem serve_snd_congr {s s' : Shared α} (h : s.index = s'.index) {step : Step α}
    (hstep : step ≠ .single (.ask .inspect)) : (s.serve step).2 = (s'.serve step).2 := by
  cases step with
  | single r =>
    cases r with
    | ask q =>
      have hq : q ≠ .inspect := fun hq => hstep (hq ▸ rfl)
      rw [serve, serve, answer_eq s hq, answer_eq s' hq, h]
    | change c => rw [serve_single s (by simp), serve_single s' (by simp), h]
    | subscribe text v => rw [serve_single s (by simp), serve_single s' (by simp), h]
  | write rs => rw [serve, serve, h]
  | read qs => rw [serve, serve, h]
  | renew => rw [serve, serve, h]
  | failWriting topic v =>
    rw [serve, serve, h]
    cases s'.index.apply (.insert topic v) <;> rfl

omit [ToString α] in
theorem isFailure_carryOut {t : Index α} {c : Change α} :
    isFailure (t.carryOut c).2 = true ↔ ∃ m, t.apply c = .error m := by
  rw [Index.carryOut]
  cases t.apply c with
  | ok r => simp [isFailure]
  | error m => simp [isFailure]

theorem isFailure_serve {t : Index α} {r : Request α} : isFailure (t.serve r).2 = true ↔
    ∃ topic, r.storesAt? = some topic ∧ t.dialect.Refuses t.guard topic := by
  have hcarry : ∀ c : Change α, isFailure (t.carryOut c).2 = true ↔
      ∃ topic, (Request.change c).storesAt? = some topic ∧ t.dialect.Refuses t.guard topic := by
    intro c
    rw [isFailure_carryOut]
    simp only [Index.apply_eq_error_iff]
    cases c <;> simp [Request.storesAt?]
  cases r with
  | change c => exact hcarry c
  | ask q => simp [Index.serve, isFailure, Request.storesAt?]
  | subscribe text v =>
    rw [Index.serve, Request.storesAt?]
    cases Topic.parse .filter text with
    | error e => simp [isFailure, Except.toOption]
    | ok topic => exact hcarry (.insert topic v)

theorem poisoned_serve (s : Shared α) (step : Step α) : (s.serve step).1.poisoned = true ↔
    step.Fails s.index.dialect s.index.guard ∨ s.poisoned = true ∧ step ≠ .renew := by
  have hlone : ∀ r : Request α, (∀ q, r ≠ .ask q) → ((s.serve (.single r)).1.poisoned = true ↔
      (Step.single r).Fails s.index.dialect s.index.guard ∨ s.poisoned = true) := by
    intro r hr
    rw [serve_single s hr, poisoned_written, Bool.or_eq_true, isFailure_serve, or_comm]; rfl
  cases step with
  | single r =>
    cases r with
    | ask q => simp [serve, Step.Fails, Request.storesAt?]
    | change c => simpa using hlone (.change c) (by simp)
    | subscribe text v => simpa using hlone (.subscribe text v) (by simp)
  | write rs => simp [serve, Step.Fails]
  | read qs => simp [serve, Step.Fails]
  | renew => simp [serve, Step.Fails, ofIndex, Lock.ofContent, poisoned]
  | failWriting topic v =>
    rw [serve]
    cases s.index.apply (.insert topic v) <;> simp [Step.Fails]

/-! ## Runs -/

theorem serveAll_cons (s : Shared α) (step : Step α) (steps : List (Step α)) :
    s.serveAll (step :: steps) = (((s.serve step).1.serveAll steps).1,
      (s.serve step).2 :: ((s.serve step).1.serveAll steps).2) := rfl

theorem index_serveAll (s : Shared α) (steps : List (Step α)) :
    (s.serveAll steps).1.index = (s.index.serveAll (steps.flatMap (·.requests))).1 := by
  induction steps generalizing s with
  | nil => rfl
  | cons step steps ih =>
    rw [serveAll_cons, ih, List.flatMap_cons, Index.serveAll_append, index_serve]

theorem replies_serveAll (s : Shared α) {steps : List (Step α)}
    (hsteps : .single (.ask .inspect) ∉ steps) : (s.serveAll steps).2.flatMap (·.replies) =
      (s.index.serveAll (steps.flatMap (·.requests))).2 := by
  induction steps generalizing s with
  | nil => rfl
  | cons step steps ih =>
    obtain ⟨hstep, hsteps⟩ := not_or.mp (mt List.mem_cons.mpr hsteps)
    rw [serveAll_cons, List.flatMap_cons, List.flatMap_cons, Index.serveAll_append, ← index_serve,
      replies_serve s (Ne.symm hstep), ih _ hsteps]

theorem echoes_serveAll (s : Shared α) (steps : List (Step α)) :
    List.Forall₂ Echoes ((s.serveAll steps).2.flatMap (·.replies))
      (s.index.serveAll (steps.flatMap (·.requests))).2 := by
  induction steps generalizing s with
  | nil => exact .nil
  | cons step steps ih =>
    rw [serveAll_cons, List.flatMap_cons, List.flatMap_cons, Index.serveAll_append, ← index_serve]
    exact List.rel_append (echoes_serve s step) (ih _)

theorem serveAll_snd_congr {s s' : Shared α} (h : s.index = s'.index) {steps : List (Step α)}
    (hsteps : .single (.ask .inspect) ∉ steps) : (s.serveAll steps).2 = (s'.serveAll steps).2 := by
  induction steps generalizing s s' with
  | nil => rfl
  | cons step steps ih =>
    obtain ⟨hstep, hsteps⟩ := not_or.mp (mt List.mem_cons.mpr hsteps)
    have hafter : (s.serve step).1.index = (s'.serve step).1.index := by
      rw [index_serve, index_serve, h]
    rw [serveAll_cons, serveAll_cons, serve_snd_congr h (Ne.symm hstep), ih hafter hsteps]

theorem poisoned_serveAll (s : Shared α) (steps : List (Step α)) :
    (s.serveAll steps).1.poisoned = true ↔ (s.poisoned = true ∧ .renew ∉ steps) ∨
      FailedSince s.index.dialect s.index.guard steps := by
  induction steps generalizing s with
  | nil => simp [serveAll, FailedSince]
  | cons step steps ih =>
    rw [serveAll_cons, ih, poisoned_serve, index_serve, Index.dialect_serveAll, Index.guard_serveAll,
      failedSince_cons, List.mem_cons, not_or, eq_comm (b := step), or_and_right, and_assoc,
      or_comm (b := _ ∧ _ ∧ _), or_assoc]

/-- A shared index answers and reports like the index alone, given the requests of all steps one after
the other, and ends as it does. Lone inspections apart, no response tells whether the lock is poisoned;
it is where a writer has failed since the index was last taken out. -/
theorem serveAll_like_index (s : Shared α) (steps : List (Step α)) :
    let alone := s.index.serveAll (steps.flatMap (·.requests))
    let replies := (s.serveAll steps).2.flatMap (·.replies)
    (s.serveAll steps).1.index = alone.1 ∧
    List.Forall₂ Echoes replies alone.2 ∧
    replies.filterMap Reply.event? = alone.2.filterMap Reply.event? ∧
    (.single (.ask .inspect) ∉ steps → replies = alone.2 ∧
      ∀ s' : Shared α, s'.index = s.index → (s'.serveAll steps).2 = (s.serveAll steps).2) ∧
    ((s.serveAll steps).1.poisoned = true ↔ (s.poisoned = true ∧ .renew ∉ steps) ∨
      FailedSince s.index.dialect s.index.guard steps) :=
  ⟨index_serveAll s steps, echoes_serveAll s steps, Echoes.event? (echoes_serveAll s steps),
    fun hsteps => ⟨replies_serveAll s hsteps, fun _ h => serveAll_snd_congr h hsteps⟩,
    poisoned_serveAll s steps⟩

end Shared

end TopicIndex
