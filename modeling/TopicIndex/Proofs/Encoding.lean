import Mathlib.Data.List.Nodup
import TopicIndex.Dialect.Json
import TopicIndex.Proofs.Scalar

/-! # Dialects read back from JSON

What has been read of an object is the dialect with some of its parts still missing (`gathered`). Reading a
field adds its part, or nothing where the name is none of a part (`readField_write`), so the order of the
fields and what stands between them do not matter (`decode_encodeFields`). The compact form is one case of
this, and the array of the three values gives the dialect as well (`decode_encodeArray`). -/

namespace TopicIndex.Dialect

open Json

/-- A field of an object with a dialect in it. -/
inductive Field where
  | part (p : Part)
  | other (name : List Char) (value : Scalar)

namespace Field

def part? : Field → Option Part
  | part p => some p
  | other .. => none

def name : Field → List Char
  | part p => p.name
  | other name _ => name

def value (d : Dialect) : Field → List Char
  | part p => writeText (p.text d)
  | other _ value => value.write

def write (d : Dialect) (f : Field) : List Char := writeText f.name ++ ':' :: f.value d

/-- A field that is none of the parts has a name of its own. -/
def Named : Field → Prop
  | part _ => True
  | other name _ => ∀ p : Part, p.name ≠ name

end Field

/-- An object of the given fields. -/
def encodeFields (d : Dialect) (fs : List Field) : List Char :=
  '{' :: [','].intercalate (fs.map (·.write d)) ++ ['}']

/-- The array of the three parts. -/
def encodeArray (d : Dialect) : List Char :=
  '[' :: [','].intercalate ([Part.separator, .single, .multi].map fun p => writeText (p.text d)) ++ [']']

/-- What is known of a dialect when some parts have been read. -/
def gathered (d : Dialect) (ps : List Part) : Draft where
  separator := if .separator ∈ ps then some d.separator else none
  single := if .single ∈ ps then some d.single else none
  multi := if .multi ∈ ps then some d.multi else none

theorem gathered_nil (d : Dialect) : d.gathered [] = .blank := rfl

/-- The further fields of an object, its end, and what follows. -/
def remaining (d : Dialect) (fs : List Field) (rest : List Char) : List Char :=
  fs.flatMap (fun f => ',' :: f.write d) ++ '}' :: rest

variable {d : Dialect} {ps : List Part} {p : Part} {f : Field} {fs : List Field} {rest : List Char}

/-! ### One part -/

theorem has_gathered : (d.gathered ps).has p = decide (p ∈ ps) := by
  rw [Bool.eq_iff_iff]
  cases p <;> simp [gathered, Draft.has]

theorem fill_gathered (d : Dialect) (ps : List Part) (p : Part) :
    (d.gathered ps).fill p (p.text d) = .ok (d.gathered (p :: ps)) := by
  cases p <;> simp [gathered, Draft.fill, Part.text]

theorem finish_gathered (h : ∀ p, p ∈ ps) : (d.gathered ps).finish = .ok d := by
  simp [gathered, Draft.finish, h]

theorem readPart_write (d : Dialect) (ps : List Part) (p : Part) (rest : List Char) :
    (d.gathered ps).readPart p (writeText (p.text d) ++ rest) = .ok (d.gathered (p :: ps), rest) := by
  rw [Draft.readPart, readString_write, Reading.andThen_ok, fill_gathered]

theorem ofName?_name (p : Part) : Part.ofName? p.name = some p := by
  cases p <;> decide

theorem ofName?_eq_none {name : List Char} (h : ∀ p : Part, p.name ≠ name) : Part.ofName? name = none := by
  rw [Part.ofName?, List.find?_eq_none]
  intro p _ hp
  exact h p (beq_iff_eq.mp hp)

/-! ### Objects -/

theorem colon_cons (rest : List Char) : Skipping.colon (':' :: rest) = .ok ((), rest) := by
  rw [Skipping.colon, skipBlanks_cons (by decide)]
  rfl

theorem remaining_eq_cons (d : Dialect) (fs : List Field) (rest : List Char) :
    ∃ c text, remaining d fs rest = c :: text ∧ (c = ',' ∨ c = '}') := by
  cases fs with
  | nil => exact ⟨_, _, rfl, .inr rfl⟩
  | cons f fs => exact ⟨_, _, rfl, .inl rfl⟩

/-- Reading a field adds the part it holds, if it holds one. -/
theorem readField_write (hf : f.Named) (hp : ∀ p ∈ f.part?, p ∉ ps) (fs : List Field) (rest : List Char) :
    readField (d.gathered ps) (f.name.flatMap escape ++ '"' :: ':' :: (f.value d ++ remaining d fs rest)) =
      .ok (d.gathered (f.part?.toList ++ ps), remaining d fs rest) := by
  obtain ⟨c, text, htext, hc⟩ := remaining_eq_cons d fs rest
  rw [htext, readField, readText_write, Reading.andThen_ok]
  cases f with
  | part p =>
    have hmissing : (d.gathered ps).has p = false := by simpa [has_gathered] using hp p rfl
    simp only [Field.name, ofName?_name, hmissing, colon_cons, Reading.andThen_ok]
    exact readPart_write d ps p (c :: text)
  | other name v =>
    simp only [Field.name, ofName?_eq_none hf, colon_cons, Reading.andThen_ok, Field.value,
      skipValue_write v hc]
    rfl

theorem stepObject_first (hf : f.Named) (hp : ∀ p ∈ f.part?, p ∉ ps) (fs : List Field) (rest : List Char) :
    stepObject (true, d.gathered ps) (f.write d ++ remaining d fs rest) =
      .ok (.inl (false, d.gathered (f.part?.toList ++ ps)), remaining d fs rest) := by
  have hshape : f.write d ++ remaining d fs rest =
      '"' :: (f.name.flatMap escape ++ '"' :: ':' :: (f.value d ++ remaining d fs rest)) := by
    simp [Field.write, writeText]
  unfold stepObject
  rw [hshape, skipBlanks_cons (by decide)]
  exact congrArg (Reading.map _) (readField_write hf hp fs rest)

theorem stepObject_next (hf : f.Named) (hp : ∀ p ∈ f.part?, p ∉ ps) (fs : List Field) (rest : List Char) :
    stepObject (false, d.gathered ps) (remaining d (f :: fs) rest) =
      .ok (.inl (false, d.gathered (f.part?.toList ++ ps)), remaining d fs rest) := by
  have hshape : remaining d (f :: fs) rest =
      ',' :: '"' :: (f.name.flatMap escape ++ '"' :: ':' :: (f.value d ++ remaining d fs rest)) := by
    simp [remaining, Field.write, writeText]
  unfold stepObject
  rw [hshape, skipBlanks_cons (by decide)]
  simp only [Bool.false_eq_true, if_false]
  rw [skipBlanks_cons (by decide)]
  exact congrArg (Reading.map _) (readField_write hf hp fs rest)

theorem stepObject_end (h : ∀ p, p ∈ ps) (rest : List Char) :
    stepObject (false, d.gathered ps) ('}' :: rest) = .ok (.inr d, rest) := by
  unfold stepObject
  rw [skipBlanks_cons (by decide)]
  simp only [finish_gathered h]

/-- What is left of an object is read, if its parts are the missing ones, each once. -/
theorem iterate_remaining (hnamed : ∀ f ∈ fs, f.Named) (hd : (fs.filterMap Field.part? ++ ps).Nodup)
    (hall : ∀ p, p ∈ fs.filterMap Field.part? ++ ps) (rest : List Char) :
    iterate ⟨stepObject, takes_stepObject⟩ (false, d.gathered ps) (remaining d fs rest) = .ok (d, rest) := by
  induction fs generalizing ps with
  | nil => exact iterate_inr (stepObject_end hall rest)
  | cons f fs ih =>
    -- the part of the first field moves behind those still to be read
    have hperm : (fs.filterMap Field.part? ++ (f.part?.toList ++ ps)).Perm
        ((f :: fs).filterMap Field.part? ++ ps) := by
      cases f with
      | part p => exact List.perm_middle
      | other name v => exact .refl _
    have hp : ∀ p ∈ f.part?, p ∉ ps := fun p hp hmem =>
      (List.nodup_append.mp (List.nodup_append.mp (hperm.nodup_iff.mpr hd)).2.1).2.2 p (by simpa using hp) p
        hmem rfl
    rw [iterate_inl (stepObject_next (hnamed f (by simp)) hp fs rest)]
    exact ih (fun g hg => hnamed g (by simp [hg])) (hperm.nodup_iff.mpr hd)
      (fun p => hperm.mem_iff.mpr (hall p))

/-- The parts are read in any order, each exactly once, among any other fields. -/
theorem decode_encodeFields (hparts : (fs.filterMap Field.part?).Perm [.separator, .single, .multi])
    (hnamed : ∀ f ∈ fs, f.Named) : decode (d.encodeFields fs) = .ok d := by
  cases fs with
  | nil => exact absurd hparts.length_eq (by decide)
  | cons f fs =>
    have hshape : d.encodeFields (f :: fs) = '{' :: (f.write d ++ remaining d fs []) := by
      simp [encodeFields, remaining, intercalate_cons, List.flatMap_map]
    have hperm : (fs.filterMap Field.part? ++ (f.part?.toList ++ [])).Perm
        [.separator, .single, .multi] := by
      refine .trans ?_ hparts
      cases f with
      | part p => exact List.perm_append_singleton _ _
      | other name v => exact .of_eq (List.append_nil _)
    have hread : readObject (f.write d ++ remaining d fs []) = .ok (d, []) := by
      rw [readObject, ← gathered_nil d, iterate_inl (stepObject_first (hnamed f (by simp)) (by simp) fs [])]
      exact iterate_remaining (fun g hg => hnamed g (by simp [hg])) (hperm.nodup_iff.mpr (by decide))
        (fun p => hperm.mem_iff.mpr (by cases p <;> decide)) []
    rw [decode, readDialect, hshape, skipBlanks_cons (by decide)]
    simp only [hread]
    rfl

/-! ### Arrays -/

theorem firstElement_writeText (text rest : List Char) :
    firstElement (writeText text ++ rest) = .ok ((), writeText text ++ rest) := by
  simp only [writeText, List.cons_append]
  rw [firstElement, skipBlanks_cons (by decide)]
  rfl

theorem nextElement_writeText (text rest : List Char) :
    nextElement (',' :: (writeText text ++ rest)) = .ok ((), writeText text ++ rest) := by
  simp only [writeText, List.cons_append]
  rw [nextElement, skipBlanks_cons (by decide)]
  simp only
  rw [skipBlanks_cons (by decide)]
  rfl

theorem decode_encodeArray (d : Dialect) : decode d.encodeArray = .ok d := by
  have hshape : d.encodeArray = '[' :: (writeText (Part.separator.text d) ++
      ',' :: (writeText (Part.single.text d) ++ ',' :: (writeText (Part.multi.text d) ++ [']']))) := by
    simp [encodeArray]
  have hread : readArray (writeText (Part.separator.text d) ++
      ',' :: (writeText (Part.single.text d) ++ ',' :: (writeText (Part.multi.text d) ++ [']']))) =
      .ok (d, []) := by
    rw [readArray, firstElement_writeText, Reading.andThen_ok, ← gathered_nil d, readPart_write,
      Reading.andThen_ok, nextElement_writeText, Reading.andThen_ok, readPart_write, Reading.andThen_ok,
      nextElement_writeText, Reading.andThen_ok, readPart_write, Reading.andThen_ok,
      finish_gathered (by intro p; cases p <;> simp)]
    rfl
  rw [decode, readDialect, hshape, skipBlanks_cons (by decide)]
  simp only [hread]
  rfl

/-! ### Dialects -/

theorem encode_eq_encodeFields (d : Dialect) :
    d.encode = d.encodeFields [.part .separator, .part .single, .part .multi] := rfl

theorem decode_encode (d : Dialect) : decode d.encode = .ok d := by
  rw [encode_eq_encodeFields]
  exact decode_encodeFields (.refl _) (by simp [Field.Named])

/-- A dialect is read back from what it is written as, from an object with its parts in any order among
other fields, and from the array of the parts. -/
theorem decode_encodings (d : Dialect) :
    decode d.encode = .ok d ∧ (∀ d' : Dialect, d'.encode = d.encode → d' = d) ∧
      (∀ fs : List Field, (fs.filterMap Field.part?).Perm [.separator, .single, .multi] →
        (∀ f ∈ fs, f.Named) → decode (d.encodeFields fs) = .ok d) ∧
      decode d.encodeArray = .ok d := by
  refine ⟨decode_encode d, fun d' h => ?_, fun fs => decode_encodeFields, decode_encodeArray d⟩
  have hsame := decode_encode d'
  rw [h, decode_encode d] at hsame
  exact (Except.ok.inj hsame).symm

theorem decode_encodings_shuffled :
    let d : Dialect := ⟨'é', "\"+\\", ""⟩
    let fs : List Field := [.other "id".toList (.integer (-70)), .part .multi, .other [] .null,
      .part .separator, .other "note".toList (.text "\"#\"\n".toList), .part .single]
    (fs.filterMap Field.part?).Perm [.separator, .single, .multi] ∧ (∀ f ∈ fs, f.Named) ∧
      decode (d.encodeFields fs) = .ok d := by
  intro d fs
  have hparts : (fs.filterMap Field.part?).Perm [.separator, .single, .multi] := by decide
  have hnamed : ∀ f ∈ fs, f.Named := by
    simp only [fs, List.forall_mem_cons, List.not_mem_nil, false_implies, implies_true, and_true, Field.Named,
      true_and]
    refine ⟨?_, ?_, ?_⟩ <;> (intro p; cases p <;> decide)
  exact ⟨hparts, hnamed, (decode_encodings d).2.2.1 fs hparts hnamed⟩

end TopicIndex.Dialect
