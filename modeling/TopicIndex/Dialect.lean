/-!
# Dialects

A dialect fixes how topic text is read: the character between segments and the two wildcard
tokens. The tokens are arbitrary text. They may be empty, equal, or hold the separator; a token
that holds the separator is simply no segment of any topic.
-/

namespace TopicIndex

/-- A segment read under a dialect. -/
inductive Segment where
  | literal (text : String)
  /-- Stands for any one segment. -/
  | single
  /-- Stands for all remaining segments, none included. -/
  | multi
deriving DecidableEq

namespace Segment

def isWildcard : Segment → Bool
  | literal _ => false
  | single | multi => true

def text? : Segment → Option String
  | literal text => some text
  | single | multi => none

end Segment

structure Dialect where
  separator : Char
  single : String
  multi : String
deriving DecidableEq

namespace Dialect

/-- The dialect of MQTT topic filters. -/
def mqtt : Dialect where
  separator := '/'
  single := "+"
  multi := "#"

/-- The segments between the separators; every text has at least one, possibly empty. -/
def split (d : Dialect) (topic : String) : List String :=
  (topic.toList.splitOn d.separator).map String.ofList

/-- The text with the given segments. -/
def join (d : Dialect) (path : List String) : String :=
  String.ofList ([d.separator].intercalate (path.map String.toList))

/-- Where the tokens coincide, the segment is the single-level wildcard. -/
def read (d : Dialect) (segment : String) : Segment :=
  if segment = d.single then .single
  else if segment = d.multi then .multi
  else .literal segment

/-- No segment of the path is a wildcard. -/
def isConcrete (d : Dialect) (path : List String) : Bool :=
  path.all fun segment => !(d.read segment).isWildcard

/-- The multi-level token stands in a segment before the last. -/
def isMisplaced (d : Dialect) (path : List String) : Bool :=
  path.dropLast.contains d.multi

theorem split_ne_nil (d : Dialect) (topic : String) : d.split topic ≠ [] := by
  simp [split, List.splitOn_ne_nil]

@[simp] theorem join_split (d : Dialect) (topic : String) : d.join (d.split topic) = topic := by
  simp [join, split, List.map_map, Function.comp_def, List.intercalate_splitOn]

/-- Distinct texts have distinct paths. -/
theorem split_inj (d : Dialect) {s t : String} : d.split s = d.split t ↔ s = t :=
  ⟨fun h => by rw [← d.join_split s, h, join_split], fun h => h ▸ rfl⟩

theorem split_join (d : Dialect) {path : List String} (hne : path ≠ [])
    (hsep : ∀ segment ∈ path, d.separator ∉ segment.toList) : d.split (d.join path) = path := by
  rw [split, join, String.toList_ofList, List.splitOn_intercalate _ (by simpa using hsep) (by simpa)]
  simp [List.map_map, Function.comp_def]

theorem intercalate_cons {α : Type} (a : α) (x : List α) (xs : List (List α)) :
    [a].intercalate (x :: xs) = x ++ xs.flatMap (a :: ·) := by
  induction xs generalizing x with
  | nil => simp
  | cons y xs ih => rw [List.intercalate_cons_cons, ih, List.flatMap_cons]; simp

theorem not_mem_of_mem_splitOn {c : Char} {text part : List Char} (h : part ∈ text.splitOn c) :
    c ∉ part := by
  induction text generalizing part with
  | nil =>
    rw [List.splitOn_nil, List.mem_singleton] at h
    simp [h]
  | cons x text ih =>
    rw [List.splitOn_cons_eq_if_modifyHead] at h
    split at h
    · rcases List.mem_cons.mp h with rfl | h
      · simp
      · exact ih h
    · next hx =>
      cases hs : text.splitOn c with
      | nil => exact absurd hs (List.splitOn_ne_nil _ _)
      | cons first rest =>
        rw [hs, List.modifyHead_cons] at h
        rcases List.mem_cons.mp h with rfl | h
        · have hfirst : c ∉ first := ih (by simp [hs])
          have hc : c ≠ x := fun hc => hx (beq_iff_eq.mpr hc.symm)
          simp [hc, hfirst]
        · exact ih (by simp [hs, h])

theorem separator_not_mem {d : Dialect} {topic segment : String} (h : segment ∈ d.split topic) :
    d.separator ∉ segment.toList := by
  obtain ⟨part, hpart, rfl⟩ := List.mem_map.mp h
  rw [String.toList_ofList]
  exact not_mem_of_mem_splitOn hpart

theorem read_eq_literal_iff {d : Dialect} {segment text : String} :
    d.read segment = .literal text ↔
      segment = text ∧ segment ≠ d.single ∧ segment ≠ d.multi := by
  unfold read
  split
  · simp_all
  · split <;> simp_all

theorem read_eq_literal {d : Dialect} {segment : String}
    (h : (d.read segment).isWildcard = false) : d.read segment = .literal segment := by
  cases hs : d.read segment with
  | literal text => rw [(read_eq_literal_iff.mp hs).1]
  | single | multi => rw [hs] at h; cases h

theorem read_eq_single_iff {d : Dialect} {segment : String} :
    d.read segment = .single ↔ segment = d.single := by
  unfold read
  split
  · simp_all
  · split <;> simp_all

theorem read_single (d : Dialect) : d.read d.single = .single := by simp [read]

theorem isWildcard_read {d : Dialect} {segment : String} :
    (d.read segment).isWildcard = true ↔ segment = d.single ∨ segment = d.multi := by
  unfold read
  split
  · simp_all [Segment.isWildcard]
  · split <;> simp_all [Segment.isWildcard]

theorem ne_multi_of_isWildcard {d : Dialect} {segment : String}
    (h : (d.read segment).isWildcard = false) : segment ≠ d.multi := fun hm => by
  rw [isWildcard_read.mpr (.inr hm)] at h; cases h

theorem read_multi {d : Dialect} (hd : d.single ≠ d.multi) : d.read d.multi = .multi := by
  simp [read, hd.symm]

theorem read_eq_multi_iff {d : Dialect} {segment : String} (hd : d.single ≠ d.multi) :
    d.read segment = .multi ↔ segment = d.multi := by
  constructor
  · intro h
    rcases isWildcard_read.mp (by rw [h]; rfl) with hs | hs
    · rw [hs, read_single] at h; cases h
    · exact hs
  · rintro rfl
    exact read_multi hd

theorem isMisplaced_cons_of_ne {d : Dialect} {segment : String} (hs : segment ≠ d.multi)
    (path : List String) : d.isMisplaced (segment :: path) = d.isMisplaced path := by
  cases path with
  | nil => rfl
  | cons t path => simp [isMisplaced, hs.symm]

theorem eq_nil_of_not_misplaced {d : Dialect} {path : List String}
    (h : d.isMisplaced (d.multi :: path) = false) : path = [] := by
  cases path with
  | nil => rfl
  | cons t path => simp [isMisplaced] at h

theorem isMisplaced_append (d : Dialect) (p : List String) (segment : String) (q : List String) :
    d.isMisplaced (p ++ d.multi :: segment :: q) = true := by
  simp [isMisplaced, List.dropLast_append_of_ne_nil]

end Dialect

end TopicIndex
