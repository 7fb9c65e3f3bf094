import Mathlib.Data.List.Chain
import Mathlib.Data.List.DropRight
import TopicIndex.Topic

/-! # The canonical text of a topic

Merging and dropping separators leaves the segments that are not empty as they are (`words_canonical`)
and takes from the others all but one at the front, so the segments of the canonical text are `pathOf` the
raw one (`split_canonical`). -/

namespace TopicIndex.Topic

/-- The segments of characters that are not empty. -/
def charWords (separator : Char) (text : List Char) : List (List Char) :=
  (text.splitOn separator).filter (· ≠ [])

/-- The segments that are not empty. -/
def words (text : String) : List String := (Dialect.mqtt.split text).filter (· ≠ "")

/-- The text begins with a separator. -/
def IsRooted (text : String) : Prop := text.toList.head? = some Dialect.mqtt.separator

instance (text : String) : Decidable (IsRooted text) := inferInstanceAs (Decidable (_ = _))

/-- The path that raw text is read as: its segments without those that only repeated or closing
separators make. -/
def pathOf (text : String) : List String := (if IsRooted text then [""] else []) ++ words text

section Chars

variable {s : Char} {text : List Char}

theorem charWords_append (s : Char) (before text : List Char) :
    charWords s (before ++ s :: text) = charWords s before ++ charWords s text := by
  rw [charWords, List.splitOn_append_cons_self, List.filter_append]; rfl

theorem charWords_nil (s : Char) : charWords s [] = [] := rfl

theorem charWords_concat (s : Char) (text : List Char) : charWords s (text ++ [s]) = charWords s text := by
  rw [charWords_append, charWords_nil, List.append_nil]

/-- On the characters kept so far, which end in a separator if `after` says so, the rest follows as
it would unmerged. -/
theorem charWords_mergeRuns (text : List Char) (kept : List Char) (after : Bool)
    (hafter : after = true → ∃ front, kept = front ++ [s]) :
    charWords s (kept ++ mergeRuns s after text) = charWords s (kept ++ text) := by
  induction text generalizing kept after with
  | nil => rfl
  | cons c text ih =>
    have hpush : charWords s (kept ++ c :: mergeRuns s (c == s) text) = charWords s (kept ++ c :: text) := by
      have := ih (kept ++ [c]) (c == s) fun hc => ⟨kept, by rw [beq_iff_eq.mp hc]⟩
      rwa [List.append_assoc, List.append_assoc] at this
    rw [mergeRuns]
    split
    · next h =>
      obtain ⟨hc, hafter'⟩ : c = s ∧ after = true := by simpa using h
      subst hc
      obtain ⟨front, rfl⟩ := hafter hafter'
      have := ih (front ++ [c]) true fun _ => ⟨front, rfl⟩
      rw [beq_self_eq_true, this, charWords_append, charWords_concat, List.append_assoc,
        List.singleton_append, charWords_append]
    · exact hpush

theorem trimEnd_eq (s : Char) (text : List Char) : trimEnd s text = text.rdropWhile (· == s) := rfl

theorem charWords_trimEnd (s : Char) (text : List Char) :
    charWords s (trimEnd s text) = charWords s text := by
  rw [trimEnd_eq]
  induction text using List.reverseRecOn with
  | nil => rfl
  | append_singleton text c ih =>
    by_cases hc : c = s
    · subst hc
      rw [List.rdropWhile_concat_pos _ _ _ (by simp), ih, charWords_concat]
    · rw [List.rdropWhile_concat_neg _ _ _ (by simpa using hc)]

theorem mem_mergeRuns {c : Char} (hc : c ≠ s) (after : Bool) : c ∈ mergeRuns s after text ↔ c ∈ text := by
  induction text generalizing after with
  | nil => simp [mergeRuns]
  | cons x text ih =>
    rw [mergeRuns]
    split
    · next h =>
      obtain ⟨rfl, -⟩ : x = s ∧ after = true := by simpa using h
      rw [ih, List.mem_cons, or_iff_right hc]
    · rw [List.mem_cons, List.mem_cons, ih]

theorem trimEnd_mergeRuns_eq_nil (after : Bool) :
    trimEnd s (mergeRuns s after text) = [] ↔ ∀ c ∈ text, c = s := by
  rw [trimEnd_eq, List.rdropWhile_eq_nil_iff]
  constructor
  · intro h c hc
    by_contra hne
    exact hne (beq_iff_eq.mp (h c ((mem_mergeRuns hne after).mpr hc)))
  · intro h c hc
    by_contra hne
    rw [beq_iff_eq] at hne
    exact hne (h c ((mem_mergeRuns hne after).mp hc))

/-- No separator stands beside another. -/
def Spaced (s : Char) (text : List Char) : Prop := text.IsChain fun a b => a = s → b ≠ s

theorem spaced_mergeRuns (after : Bool) (text : List Char) : Spaced s (mergeRuns s after text) ∧
    (after = true → (mergeRuns s after text).head? ≠ some s) := by
  induction text generalizing after with
  | nil => exact ⟨List.IsChain.nil, by simp [mergeRuns]⟩
  | cons c text ih =>
    rw [mergeRuns]
    split
    · next h =>
      obtain ⟨hc, -⟩ : c = s ∧ after = true := by simpa using h
      rw [beq_iff_eq.mpr hc]
      exact ⟨(ih true).1, fun _ => (ih true).2 rfl⟩
    · next h =>
      refine ⟨List.isChain_cons.mpr ⟨?_, (ih _).1⟩, fun hafter hc => h ?_⟩
      · intro d hd hc hds
        exact (ih _).2 (beq_iff_eq.mpr hc) (hds ▸ hd)
      · simpa [hafter] using hc

theorem isPrefix_trimEnd (s : Char) (text : List Char) : trimEnd s text <+: text :=
  List.rdropWhile_prefix _ text

theorem Spaced.trimEnd (h : Spaced s text) : Spaced s (trimEnd s text) :=
  List.IsChain.prefix h (isPrefix_trimEnd s text)

theorem getLast?_trimEnd (s : Char) (text : List Char) : (trimEnd s text).getLast? ≠ some s := by
  intro h
  obtain ⟨front, hfront⟩ := List.getLast?_eq_some_iff.mp h
  have hne : text.rdropWhile (· == s) ≠ [] := by
    rw [← trimEnd_eq, hfront]
    simp
  have := List.rdropWhile_last_not (· == s) text hne
  simp only [← trimEnd_eq, hfront] at this
  simp at this

theorem splitOn_cons_self (s : Char) (text : List Char) :
    (s :: text).splitOn s = [] :: text.splitOn s := by
  simpa using List.splitOn_append_cons_self (a := s) [] text

theorem splitOn_cons_of_ne {c : Char} (hc : c ≠ s) (text : List Char) :
    ∃ part rest, text.splitOn s = part :: rest ∧ (c :: text).splitOn s = (c :: part) :: rest := by
  obtain ⟨part, rest, h⟩ := List.exists_cons_of_ne_nil (List.splitOn_ne_nil s text)
  refine ⟨part, rest, h, ?_⟩
  rw [List.splitOn_cons_eq_if_modifyHead, if_neg (by simpa using hc), h, List.modifyHead_cons]

/-- The characters between the separators are those of the segments. -/
theorem exists_mem_splitOn {c : Char} (hc : c ≠ s) : (∃ part ∈ text.splitOn s, c ∈ part) ↔ c ∈ text := by
  induction text with
  | nil => simp
  | cons x text ih =>
    by_cases hx : x = s
    · subst hx
      rw [splitOn_cons_self, List.mem_cons, or_iff_right hc, ← ih]
      simp
    · obtain ⟨part, rest, hsplit, hcons⟩ := splitOn_cons_of_ne hx text
      rw [hsplit] at ih
      rw [hcons, List.mem_cons, ← ih]
      simp [or_assoc]

/-- Where no separator stands beside another or at the end, only the first segment may be empty. -/
theorem ne_nil_of_mem_tail_splitOn (hspaced : Spaced s text) (hlast : text.getLast? ≠ some s) :
    ∀ part ∈ (text.splitOn s).tail, part ≠ [] := by
  induction text with
  | nil => simp
  | cons c text ih =>
    have hspaced' : Spaced s text := List.IsChain.tail hspaced
    have hlast' : text.getLast? ≠ some s := fun h => hlast (by simp [List.getLast?_cons, h])
    by_cases hc : c = s
    · subst hc
      rw [splitOn_cons_self, List.tail_cons]
      cases text with
      | nil => simp at hlast
      | cons d text =>
        have hd : d ≠ c := (List.isChain_cons_cons.mp hspaced).1 rfl
        obtain ⟨part, rest, -, hsplit⟩ := splitOn_cons_of_ne hd text
        have htail := ih hspaced' hlast'
        rw [hsplit] at htail ⊢
        simpa using htail
    · obtain ⟨part, rest, hsplit, hcons⟩ := splitOn_cons_of_ne hc text
      have htail := ih hspaced' hlast'
      rw [hsplit] at htail
      rwa [hcons]

theorem splitOn_eq_charWords (hspaced : Spaced s text) (hlast : text.getLast? ≠ some s)
    (hne : text ≠ []) :
    text.splitOn s = (if text.head? = some s then [[]] else []) ++ charWords s text := by
  have htail := ne_nil_of_mem_tail_splitOn hspaced hlast
  obtain ⟨c, text, rfl⟩ := List.exists_cons_of_ne_nil hne
  by_cases hc : c = s
  · subst hc
    rw [splitOn_cons_self] at htail
    rw [charWords, splitOn_cons_self, List.filter_cons_of_neg (by simp),
      List.filter_eq_self.mpr (by simpa using htail)]
    simp
  · obtain ⟨part, rest, -, hsplit⟩ := splitOn_cons_of_ne hc text
    rw [hsplit] at htail
    rw [charWords, hsplit, List.filter_cons_of_pos (by simp), List.filter_eq_self.mpr (by simpa using htail)]
    simp [hc]

theorem head?_trimEnd (h : trimEnd s text ≠ []) : (trimEnd s text).head? = text.head? := by
  obtain ⟨rest, hrest⟩ := isPrefix_trimEnd s text
  conv_rhs => rw [← hrest]
  rw [List.head?_append_of_ne_nil _ h]

theorem head?_mergeRuns (s : Char) (text : List Char) : (mergeRuns s false text).head? = text.head? := by
  cases text with
  | nil => rfl
  | cons c text => simp [mergeRuns]

end Chars

theorem canonical_eq_empty {text : String} :
    canonical text = "" ↔ ∀ c ∈ text.toList, c = Dialect.mqtt.separator := by
  rw [canonical, String.ofList_eq_empty_iff, trimEnd_mergeRuns_eq_nil]

theorem words_eq (text : String) :
    words text = (charWords Dialect.mqtt.separator text.toList).map String.ofList := by
  rw [words, charWords, Dialect.split, List.filter_map]
  congr 1
  refine List.filter_congr fun part _ => ?_
  simp

theorem words_canonical (text : String) : words (canonical text) = words text := by
  rw [words_eq, words_eq, canonical, String.toList_ofList, charWords_trimEnd]
  exact congrArg _ (charWords_mergeRuns text.toList [] false (by simp))

theorem isRooted_canonical {text : String} (h : canonical text ≠ "") :
    IsRooted (canonical text) ↔ IsRooted text := by
  have hne : trimEnd Dialect.mqtt.separator (mergeRuns Dialect.mqtt.separator false text.toList) ≠ [] :=
    fun hnil => h (by rw [canonical, hnil])
  rw [IsRooted, IsRooted, canonical, String.toList_ofList, head?_trimEnd hne, head?_mergeRuns]

theorem split_canonical {text : String} (h : canonical text ≠ "") :
    Dialect.mqtt.split (canonical text) = pathOf text := by
  have hne : (canonical text).toList ≠ [] := by simpa using h
  have hspaced : Spaced Dialect.mqtt.separator (canonical text).toList := by
    rw [canonical, String.toList_ofList]
    exact (spaced_mergeRuns false text.toList).1.trimEnd
  have hlast : (canonical text).toList.getLast? ≠ some Dialect.mqtt.separator := by
    rw [canonical, String.toList_ofList]
    exact getLast?_trimEnd _ _
  have hrooted := isRooted_canonical h
  rw [IsRooted] at hrooted
  rw [Dialect.split, splitOn_eq_charWords hspaced hlast hne, List.map_append, ← words_eq,
    words_canonical, pathOf]
  simp only [hrooted]
  split <;> rfl

/-! ### Conditions that no empty segment breaks -/

section PathOf

variable (text : String)

theorem forall_mem_pathOf {P : String → Prop} (hempty : P "") :
    (∀ segment ∈ pathOf text, P segment) ↔ ∀ segment ∈ Dialect.mqtt.split text, P segment := by
  have hlead : ∀ segment ∈ (if IsRooted text then [""] else []), P segment := by
    split <;> simp [hempty]
  constructor
  · intro h segment hmem
    by_cases hs : segment = ""
    · exact hs ▸ hempty
    · exact h segment (List.mem_append_right _ (List.mem_filter.mpr ⟨hmem, by simpa using hs⟩))
  · intro h segment hmem
    rcases List.mem_append.mp hmem with hmem | hmem
    · exact hlead segment hmem
    · exact h segment (List.mem_filter.mp hmem).1

theorem pairwise_pathOf {R : String → String → Prop} (hempty : ∀ later, R "" later) :
    (pathOf text).Pairwise R ↔
      (Dialect.mqtt.split text).Pairwise fun segment later => later ≠ "" → R segment later := by
  have hlead : (if IsRooted text then [""] else []).Pairwise R := by split <;> simp
  have hcross : ∀ segment ∈ (if IsRooted text then [""] else []), ∀ later ∈ words text, R segment later := by
    split <;> simp [hempty]
  have hwords : (words text).Pairwise R ↔
      (Dialect.mqtt.split text).Pairwise fun segment later => later ≠ "" → R segment later := by
    rw [words, List.pairwise_filter]
    refine List.Pairwise.iff fun segment later => ?_
    by_cases hs : segment = ""
    · simp [hs, hempty]
    · simp [hs]
  rw [pathOf, List.pairwise_append, and_iff_right hlead, hwords, and_iff_left hcross]

end PathOf

end TopicIndex.Topic
