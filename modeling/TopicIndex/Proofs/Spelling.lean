import Mathlib.Logic.Relation
import TopicIndex.Proofs.Grammar

/-! # Spellings of a topic

Raw texts are read alike if both or neither begin with a separator and their segments that are not
empty are the same (`SameReading`). The canonical text joins the path that is read
(`canonical_eq_join`), so all texts of a reading have one canonical text and one result of `parse`,
be it a fault, and the canonical text is itself of that reading. Inserting or deleting separators
that `canonical` drops (`Respaced`) changes no result. -/

namespace TopicIndex.Topic

structure SameReading (text text' : String) : Prop where
  rooted : IsRooted text ↔ IsRooted text'
  words : words text = words text'

/-- The second text has one more separator, beside another one or at the end. -/
inductive Padding (s : Char) : List Char → List Char → Prop where
  | beside (front rest : List Char) : Padding s (front ++ s :: rest) (front ++ s :: s :: rest)
  | last (front : List Char) : Padding s front (front ++ [s])

def Padded (text text' : String) : Prop := Padding Dialect.mqtt.separator text.toList text'.toList

/-- Redundant separators have been inserted and deleted. -/
def Respaced : String → String → Prop := Relation.EqvGen Padded

variable {role : Role} {text text' topic : String}

theorem words_eq_nil (h : canonical text = "") : words text = [] := by
  have hwords : words (canonical text) = words "" := by rw [h]
  rw [words_canonical] at hwords
  exact hwords

theorem canonical_eq_join (text : String) : canonical text = Dialect.mqtt.join (pathOf text) := by
  by_cases h : canonical text = ""
  · rw [h, pathOf, words_eq_nil h]
    split <;> rfl
  · rw [← split_canonical h, Dialect.join_split]

namespace SameReading

theorem pathOf_eq (h : SameReading text text') : pathOf text = pathOf text' := by
  rw [pathOf, pathOf, h.words]
  simp only [h.rooted]

theorem canonical_eq (h : SameReading text text') : canonical text = canonical text' := by
  rw [canonical_eq_join, canonical_eq_join, h.pathOf_eq]

theorem of_canonical_eq (h : canonical text = canonical text') (hne : canonical text ≠ "") :
    SameReading text text' := by
  have hne' : canonical text' ≠ "" := h ▸ hne
  refine ⟨?_, ?_⟩
  · rw [← isRooted_canonical hne, ← isRooted_canonical hne', h]
  · rw [← words_canonical text, ← words_canonical text', h]

end SameReading

theorem canonical_canonical (text : String) : canonical (canonical text) = canonical text := by
  by_cases h : canonical text = ""
  · rw [h]; rfl
  · have hsame : SameReading (canonical text) text := ⟨isRooted_canonical h, words_canonical text⟩
    exact hsame.canonical_eq

theorem Padding.canonical_eq {front rest : List Char} (h : Padding Dialect.mqtt.separator front rest) :
    canonical (String.ofList front) = canonical (String.ofList rest) := by
  have hsame : ∀ {cs cs' : List Char}, cs.head? = cs'.head? →
      charWords Dialect.mqtt.separator cs = charWords Dialect.mqtt.separator cs' →
      canonical (String.ofList cs) = canonical (String.ofList cs') := by
    intro cs cs' hhead hwords
    refine SameReading.canonical_eq ⟨?_, ?_⟩
    · rw [IsRooted, IsRooted, String.toList_ofList, String.toList_ofList, hhead]
    · rw [words_eq, words_eq, String.toList_ofList, String.toList_ofList, hwords]
  cases h with
  | beside front rest =>
    have hrest : charWords Dialect.mqtt.separator (Dialect.mqtt.separator :: rest) =
        charWords Dialect.mqtt.separator rest := charWords_append _ [] rest
    refine hsame ?_ ?_
    · cases front <;> rfl
    · rw [charWords_append, charWords_append, hrest]
  | last =>
    cases front with
    | nil => rfl
    | cons c front =>
      refine hsame rfl ?_
      exact (charWords_concat _ _).symm

theorem Respaced.canonical_eq (h : Respaced text text') : canonical text = canonical text' := by
  induction h with
  | rel x y hxy =>
    have hstep : canonical (String.ofList x.toList) = canonical (String.ofList y.toList) :=
      Padding.canonical_eq hxy
    rwa [String.ofList_toList, String.ofList_toList] at hstep
  | refl x => rfl
  | symm x y _ ih => exact ih.symm
  | trans x y z _ _ ih₁ ih₂ => exact ih₁.trans ih₂

theorem parse_congr (h : canonical text = canonical text') (role : Role) :
    parse role text = parse role text' := by
  rw [parse, parse, h]

theorem Respaced.parse_eq (h : Respaced text text') : parse role text = parse role text' :=
  parse_congr h.canonical_eq role

theorem split_of_parse (h : parse role text = .ok topic) : Dialect.mqtt.split topic = pathOf text := by
  obtain ⟨hne, -, rfl⟩ := parse_eq_ok_iff.mp h
  exact split_canonical hne

/-- What `parse` accepts it makes canonical: the text of the path that was read, without redundant
separators, and parsed to itself. Texts have one result where they are read alike, and two accepted
texts only there. -/
theorem parse_canonical (role : Role) (text : String) :
    (∀ topic, parse role text = .ok topic →
      Dialect.mqtt.split topic = (if IsRooted text then [""] else []) ++ words text ∧
      Spaced '/' topic.toList ∧ topic.toList.getLast? ≠ some '/' ∧ topic ≠ "" ∧
      parse role topic = .ok topic) ∧
    (∀ text', SameReading text text' → parse role text = parse role text') ∧
    ∀ role' text' topic, parse role text = .ok topic → parse role' text' = .ok topic →
      SameReading text text' := by
  refine ⟨fun topic h => ?_, fun text' h => parse_congr h.canonical_eq role, ?_⟩
  · have hsplit : Dialect.mqtt.split topic = pathOf text := split_of_parse h
    obtain ⟨hne, -, rfl⟩ := parse_eq_ok_iff.mp h
    have hspaced : Spaced '/' (canonical text).toList := by
      rw [canonical, String.toList_ofList]
      exact (spaced_mergeRuns false text.toList).1.trimEnd
    have hlast : (canonical text).toList.getLast? ≠ some '/' := by
      rw [canonical, String.toList_ofList]
      exact getLast?_trimEnd _ _
    have hagain : parse role (canonical text) = parse role text :=
      parse_congr (canonical_canonical text) role
    exact ⟨hsplit, hspaced, hlast, hne, hagain.trans h⟩
  · intro role' text' topic h h'
    obtain ⟨hne, -, htopic⟩ := parse_eq_ok_iff.mp h
    obtain ⟨-, -, htopic'⟩ := parse_eq_ok_iff.mp h'
    exact .of_canonical_eq (htopic.trans htopic'.symm) hne

theorem parse_canonical_rooted : parse .filter "//a///+/" = .ok "/a/+" ∧
    parse .filter "/a/+" = .ok "/a/+" ∧ SameReading "//a///+/" "/a/+" := by
  have h : parse .filter "//a///+/" = .ok "/a/+" := by decide
  obtain ⟨haccepted, -, hsame⟩ := parse_canonical .filter "//a///+/"
  obtain ⟨-, -, -, -, hagain⟩ := haccepted _ h
  exact ⟨h, hagain, hsame .filter _ _ h hagain⟩

end TopicIndex.Topic
