import TopicIndex.Json.Value

/-! # Written values read back

A string that has been written is read as the characters it was written from, whatever follows it
(`readText_write`), and is passed over as well (`skipText_write`): a step of either loop takes the escape
of one character. The other scalars are passed over up to the end of their last word or digit
(`skipValue_write`); an integer ends where a member of a container does. -/

namespace TopicIndex.Json

theorem skipBlanks_cons {c : Char} (hc : isBlank c = false) (rest : List Char) :
    skipBlanks (c :: rest) = c :: rest := by
  rw [skipBlanks, List.dropWhile_cons_of_neg (by simp [hc])]

section Loop

variable {σ β : Type} {step : Step σ β} {s s' : σ} {b : β} {text rest : List Char}

theorem iterate_inl (h : step.run s text = .ok (.inl s', rest)) :
    iterate step s text = iterate step s' rest := by
  rw [iterate_eq, h]

theorem iterate_inr (h : step.run s text = .ok (.inr b, rest)) :
    iterate step s text = .ok (b, rest) := by
  rw [iterate_eq, h]

end Loop

/-! ### Strings -/

theorem length_le_utf8Length (text : List Char) : text.length ≤ utf8Length text := by
  unfold utf8Length
  induction text with
  | nil => exact Nat.zero_le _
  | cons c text ih =>
    have hc := Char.utf8Size_pos c
    rw [String.ofList_cons, String.utf8ByteSize_append, String.utf8ByteSize_singleton, List.length_cons]
    omega

theorem hexValue?_digitChar : ∀ n < 16, hexValue? (Nat.digitChar n) = some n := by decide

/-- The digits of a control character are its code. -/
theorem readHex_control {n : Nat} (hn : n < 0x20) (rest : List Char) :
    readHex ('0' :: '0' :: Nat.digitChar (n / 16) :: Nat.digitChar (n % 16) :: rest) = .ok (n, rest) := by
  have hlen : 4 ≤ utf8Length ['0', '0', Nat.digitChar (n / 16), Nat.digitChar (n % 16)] := by
    simpa using length_le_utf8Length ['0', '0', Nat.digitChar (n / 16), Nat.digitChar (n % 16)]
  have hzero : hexValue? '0' = some 0 := by decide
  have hcode : ((0 * 16 + 0) * 16 + n / 16) * 16 + n % 16 = n := by omega
  rw [readHex]
  simp only [List.take_succ_cons, List.take_zero, Nat.not_lt.mpr hlen, if_false]
  simp only [hzero, hexValue?_digitChar (n / 16) (by omega), hexValue?_digitChar (n % 16) (by omega), hcode]

theorem readCode_control {c : Char} (hc : c.toNat < 0x20) (rest : List Char) :
    readCode ('0' :: '0' :: Nat.digitChar (c.toNat / 16) :: Nat.digitChar (c.toNat % 16) :: rest) =
      .ok (c, rest) := by
  have htrailing : isTrailing c.toNat = false := by
    simp only [isTrailing, Bool.and_eq_false_iff, decide_eq_false_iff_not]; omega
  have hleading : isLeading c.toNat = false := by
    simp only [isLeading, Bool.and_eq_false_iff, decide_eq_false_iff_not]; omega
  rw [readCode, readHex_control hc]
  simp [htrailing, hleading, Char.ofNat_toNat]

/-- A character is written behind a backslash, as its code, or as it is. -/
theorem escape_cases (c : Char) :
    (∃ e, escape c = ['\\', e] ∧ shortEscape? e = some c ∧ e ≠ 'u') ∨
    (escape c = controlEscape c.toNat ∧ c.toNat < 0x20) ∨
    (escape c = [c] ∧ c ≠ '"' ∧ c ≠ '\\' ∧ ¬ c.toNat < 0x20) := by
  unfold escape
  split
  case h_8 h1 h2 h3 h4 h5 h6 h7 =>
    split
    · next hc => exact .inr (.inl ⟨rfl, hc⟩)
    · next hc => exact .inr (.inr ⟨rfl, h1, h2, hc⟩)
  all_goals exact .inl ⟨_, rfl, rfl, by decide⟩

theorem readEscape_short {e c : Char} (he : shortEscape? e = some c) (hu : e ≠ 'u') (rest : List Char) :
    readEscape (e :: rest) = .ok (c, rest) := by
  unfold readEscape
  split
  · next h => cases h
  · next h => exact absurd (List.cons.inj h).1 hu
  · next h =>
    obtain ⟨rfl, rfl⟩ := List.cons.inj h
    rw [he]

theorem skipEscape_short {e c : Char} (he : shortEscape? e = some c) (hu : e ≠ 'u') (rest : List Char) :
    skipEscape (e :: rest) = .ok ((), rest) := by
  unfold skipEscape
  split
  · next h => cases h
  · next h => exact absurd (List.cons.inj h).1 hu
  · next h =>
    obtain ⟨rfl, rfl⟩ := List.cons.inj h
    rw [he]; rfl

theorem stepText_escape (seen : List Char) (c : Char) (rest : List Char) :
    stepText seen (escape c ++ rest) = .ok (.inl (c :: seen), rest) := by
  rcases escape_cases c with ⟨e, hc, he, hu⟩ | ⟨hc, hlt⟩ | ⟨hc, hq, hb, hlt⟩
  · rw [hc]
    exact congrArg (Reading.map _) (readEscape_short he hu rest)
  · rw [hc]
    exact congrArg (Reading.map _) (readCode_control hlt rest)
  · rw [hc, List.singleton_append]
    unfold stepText
    split
    · next h => cases h
    · next h => exact absurd (List.cons.inj h).1 hq
    · next h => exact absurd (List.cons.inj h).1 hb
    · next h =>
      obtain ⟨rfl, rfl⟩ := List.cons.inj h
      rw [if_neg hlt]

theorem stepOver_escape (c : Char) (rest : List Char) :
    stepOver () (escape c ++ rest) = .ok (.inl (), rest) := by
  rcases escape_cases c with ⟨e, hc, he, hu⟩ | ⟨hc, hlt⟩ | ⟨hc, hq, hb, hlt⟩
  · rw [hc]
    exact congrArg (Reading.map Sum.inl) (skipEscape_short he hu rest)
  · rw [hc]
    exact congrArg (fun r => Reading.map Sum.inl (Reading.map (fun _ => ()) r)) (readHex_control hlt rest)
  · rw [hc, List.singleton_append]
    unfold stepOver
    split
    · next h => cases h
    · next h => exact absurd (List.cons.inj h).1 hq
    · next h => exact absurd (List.cons.inj h).1 hb
    · next h =>
      obtain ⟨rfl, rfl⟩ := List.cons.inj h
      rw [if_neg hlt]

/-- What is read is what was written, whatever follows. -/
theorem readText_write (text rest : List Char) :
    readText (text.flatMap escape ++ '"' :: rest) = .ok (text, rest) := by
  suffices h : ∀ seen, iterate ⟨stepText, takes_stepText⟩ seen (text.flatMap escape ++ '"' :: rest) =
      .ok (seen.reverse ++ text, rest) from h []
  induction text with
  | nil =>
    intro seen
    rw [List.append_nil]
    exact iterate_inr rfl
  | cons c text ih =>
    intro seen
    rw [List.flatMap_cons, List.append_assoc, iterate_inl (stepText_escape seen c _), ih, List.reverse_cons,
      List.append_assoc, List.singleton_append]

theorem skipText_write (text rest : List Char) :
    skipText (text.flatMap escape ++ '"' :: rest) = .ok ((), rest) := by
  unfold skipText
  induction text with
  | nil => exact iterate_inr rfl
  | cons c text ih =>
    rw [List.flatMap_cons, List.append_assoc, iterate_inl (stepOver_escape c _), ih]

theorem readString_write (text rest : List Char) :
    readString (writeText text ++ rest) = .ok (text, rest) := by
  have hshape : writeText text ++ rest = '"' :: (text.flatMap escape ++ '"' :: rest) := by
    simp [writeText]
  rw [hshape, readString, skipBlanks_cons (by decide)]
  exact readText_write text rest

/-! ### Numbers -/

namespace Number

variable {n : Nat} {c : Char}

theorem isDigit_of_mem_toDigits (hc : c ∈ Nat.toDigits 10 n) : c.isDigit = true :=
  Nat.isDigit_of_mem_toDigits (by decide) (by decide) hc

theorem head?_toDigits (hn : n ≠ 0) : (Nat.toDigits 10 n).head? ≠ some '0' := by
  induction n using Nat.strongRecOn with
  | ind n ih =>
    rcases Nat.lt_or_ge n 10 with hlt | hge
    · have hdigit : ∀ k < 10, k ≠ 0 → Nat.digitChar k ≠ '0' := by decide
      rw [Nat.toDigits_of_lt_base hlt, List.head?_cons, ne_eq, Option.some_inj]
      exact hdigit n hlt hn
    · have hfront := ih (n / 10) (by omega) (by omega)
      rw [Nat.toDigits_of_base_le (by decide) hge]
      cases h : Nat.toDigits 10 (n / 10) with
      | nil => exact absurd h Nat.toDigits_ne_nil
      | cons d digits => rwa [h] at hfront

/-- No digits stand behind a leading zero. -/
theorem tail_toDigits {digits : List Char} (h : Nat.toDigits 10 n = '0' :: digits) : digits = [] := by
  by_cases hn : n = 0
  · subst hn
    exact (List.cons.inj h).2.symm
  · exact absurd (by rw [h]; rfl) (head?_toDigits hn)

theorem readDigits_toDigits (early : Fault) (n : Nat) (hc : c.isDigit = false) (rest : List Char) :
    readDigits early (Nat.toDigits 10 n ++ c :: rest) = .ok (Nat.toDigits 10 n, c :: rest) := by
  have htake : (Nat.toDigits 10 n ++ c :: rest).takeWhile Char.isDigit = Nat.toDigits 10 n := by
    rw [List.takeWhile_append_of_pos fun _ => isDigit_of_mem_toDigits,
      List.takeWhile_cons_of_neg (by simp [hc]), List.append_nil]
  have hdrop : (Nat.toDigits 10 n ++ c :: rest).dropWhile Char.isDigit = c :: rest := by
    rw [List.dropWhile_append_of_pos fun _ => isDigit_of_mem_toDigits,
      List.dropWhile_cons_of_neg (by simp [hc])]
  unfold readDigits
  rw [htake, hdrop]
  cases h : Nat.toDigits 10 n with
  | nil => exact absurd h Nat.toDigits_ne_nil
  | cons d digits => rfl

/-- A number without a fraction or a power ends where a member of a container does. -/
theorem read_toDigits (early : Fault) (n : Nat) (hc : c = ',' ∨ c = '}') (rest : List Char) :
    ∃ number, read early (Nat.toDigits 10 n ++ c :: rest) = .ok (number, c :: rest) := by
  have hdigit : c.isDigit = false := by rcases hc with rfl | rfl <;> decide
  have hwhole : readWhole early (Nat.toDigits 10 n ++ c :: rest) =
      .ok (Nat.toDigits 10 n, c :: rest) := by
    rw [readWhole, readDigits_toDigits early n hdigit, Reading.andThen_ok]
    split
    · next h => exact absurd (tail_toDigits h) (by simp)
    · rfl
  have hfraction : readFraction early (c :: rest) = .ok ([], c :: rest) := by
    rcases hc with rfl | rfl <;> rfl
  have hpower : readPower early (c :: rest) = .ok (0, c :: rest) := by
    rcases hc with rfl | rfl <;> rfl
  exact ⟨_, by rw [read, hwhole, Reading.andThen_ok, hfraction, Reading.andThen_ok, hpower]; rfl⟩

end Number

/-! ### Scalars -/

/-- A value that is no container. -/
inductive Scalar where
  | text (s : List Char)
  | integer (n : Int)
  | flag (b : Bool)
  | null

def Scalar.write : Scalar → List Char
  | text s => writeText s
  | integer n => (toString n).toList
  | flag b => (toString b).toList
  | null => "null".toList

open Skipping

variable {text rest : List Char} {c : Char}

/-- What is passed over as a scalar is no container and has no blank in front. -/
theorem skipValue_of_scalar (h : scalar text = .ok ((), rest)) : skipValue text = .ok ((), rest) := by
  refine iterate_inr ?_
  show step (.value []) text = _
  cases text with
  | nil => cases h
  | cons c text =>
    have hblank : isBlank c = false := by
      refine Bool.eq_false_iff.mpr fun hb => ?_
      simp only [isBlank, Bool.or_eq_true, beq_iff_eq] at hb
      rcases hb with ((rfl | rfl) | rfl) | rfl <;> cases h
    have hbegin : begin [] (c :: text) = .ok (.inr (), rest) := by
      unfold begin
      split
      · next h' => obtain ⟨rfl, -⟩ := List.cons.inj h'; cases h
      · next h' => obtain ⟨rfl, -⟩ := List.cons.inj h'; cases h
      · rw [h]; rfl
    unfold step
    rw [skipBlanks_cons hblank]
    exact hbegin

theorem scalar_of_isDigit {d : Char} (hd : d.isDigit = true) (text : List Char) :
    scalar (d :: text) = (Number.read .malformed (d :: text)).map fun _ => () := by
  unfold scalar
  split
  case h_7 c rest _ _ _ _ _ h =>
    obtain ⟨rfl, rfl⟩ := List.cons.inj h
    rw [if_pos hd]
  all_goals
    next h => cases h <;> exact absurd hd (by decide)

theorem scalar_toDigits (n : Nat) (hc : c = ',' ∨ c = '}') (rest : List Char) :
    scalar (Nat.toDigits 10 n ++ c :: rest) = .ok ((), c :: rest) := by
  obtain ⟨number, hread⟩ := Number.read_toDigits .malformed n hc rest
  cases h : Nat.toDigits 10 n with
  | nil => exact absurd h Nat.toDigits_ne_nil
  | cons d digits =>
    have hd : d.isDigit = true := Number.isDigit_of_mem_toDigits (n := n) (by simp [h])
    rw [h] at hread
    rw [List.cons_append, scalar_of_isDigit hd]
    exact congrArg (Reading.map _) hread

/-- A scalar is passed over up to the end of the member it stands in. -/
theorem skipValue_write (v : Scalar) (hc : c = ',' ∨ c = '}') (rest : List Char) :
    skipValue (v.write ++ c :: rest) = .ok ((), c :: rest) := by
  refine skipValue_of_scalar ?_
  cases v with
  | text s =>
    have hshape : Scalar.write (.text s) ++ c :: rest = '"' :: (s.flatMap escape ++ '"' :: c :: rest) := by
      simp [Scalar.write, writeText]
    rw [hshape]
    exact skipText_write s (c :: rest)
  | integer n =>
    cases n with
    | ofNat n =>
      have hshape : Scalar.write (.integer (.ofNat n)) = Nat.toDigits 10 n := Nat.toList_repr
      rw [hshape]
      exact scalar_toDigits n hc rest
    | negSucc n =>
      have hshape : Scalar.write (.integer (.negSucc n)) = '-' :: Nat.toDigits 10 (n + 1) := by
        show ("-" ++ (n + 1).repr).toList = _
        rw [String.toList_append, Nat.toList_repr]; rfl
      obtain ⟨number, hread⟩ := Number.read_toDigits .malformed (n + 1) hc rest
      rw [hshape]
      exact congrArg (Reading.map _) hread
  | flag b => cases b <;> exact readWord_append _ (c :: rest)
  | null => exact readWord_append _ (c :: rest)

end TopicIndex.Json
