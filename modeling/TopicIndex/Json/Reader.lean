/-!
# Reading JSON text

Readers take what they read off the front of a list of characters and give back the rest. The
first fault met from the left ends the reading. `iterate` is the loop of all of them; it ends
because each of its steps takes something off the text (`Takes`).
-/

namespace TopicIndex.Json

inductive Fault where
  /-- Not JSON. -/
  | malformed
  /-- The text ends within a value. -/
  | truncated
  /-- JSON, but not of the shape asked for. -/
  | unsuitable
deriving DecidableEq

/-- What was read and the rest of the text. -/
abbrev Reading (β : Type) := Except Fault (β × List Char)

variable {β γ σ : Type} {text : List Char}

namespace Reading

def map (f : β → γ) : Reading β → Reading γ
  | .error fault => .error fault
  | .ok (b, rest) => .ok (f b, rest)

/-- Goes on with the rest of the text. -/
def andThen (r : Reading β) (next : β → List Char → Reading γ) : Reading γ :=
  match r with
  | .error fault => .error fault
  | .ok (b, rest) => next b rest

@[simp] theorem map_ok (f : β → γ) (b : β) (rest : List Char) :
    map f (.ok (b, rest)) = .ok (f b, rest) := rfl

@[simp] theorem andThen_ok (b : β) (rest : List Char) (next : β → List Char → Reading γ) :
    andThen (.ok (b, rest)) next = next b rest := rfl

end Reading

/-- The rest, if any, is shorter than the text. -/
def Takes (text : List Char) (r : Reading β) : Prop :=
  ∀ b rest, r = .ok (b, rest) → rest.length < text.length

/-- The rest, if any, is no longer than the text. -/
def Keeps (text : List Char) (r : Reading β) : Prop :=
  ∀ b rest, r = .ok (b, rest) → rest.length ≤ text.length

theorem Takes.keeps {r : Reading β} (h : Takes text r) : Keeps text r :=
  fun b rest hr => Nat.le_of_lt (h b rest hr)

theorem Takes.error (fault : Fault) : Takes text (.error fault : Reading β) := by
  intro b rest h
  cases h

theorem Keeps.ok {b : β} {rest : List Char} (h : rest.length ≤ text.length) :
    Keeps text (.ok (b, rest)) := by
  intro b' rest' hr
  cases hr
  exact h

theorem Takes.ok {b : β} {rest : List Char} (h : rest.length < text.length) :
    Takes text (.ok (b, rest)) := by
  intro b' rest' hr
  cases hr
  exact h

theorem Keeps.takes_of_lt {r : Reading β} {text' : List Char} (h : Keeps text r)
    (hlt : text.length < text'.length) : Takes text' r :=
  fun b rest hr => Nat.lt_of_le_of_lt (h b rest hr) hlt

theorem Takes.of_le {r : Reading β} {text' : List Char} (h : Takes text r)
    (hle : text.length ≤ text'.length) : Takes text' r :=
  fun b rest hr => Nat.lt_of_lt_of_le (h b rest hr) hle

theorem Keeps.cons {r : Reading β} (h : Keeps text r) (c : Char) : Takes (c :: text) r :=
  h.takes_of_lt (by simp)

theorem Takes.andThen {r : Reading β} {next : β → List Char → Reading γ} (hr : Takes text r)
    (hn : ∀ b rest, Keeps rest (next b rest)) : Takes text (r.andThen next) := by
  intro c rest h
  cases r with
  | error fault => cases h
  | ok p => exact Nat.lt_of_le_of_lt (hn p.1 p.2 c rest h) (hr p.1 p.2 rfl)

theorem Keeps.andThen {r : Reading β} {next : β → List Char → Reading γ} (hr : Keeps text r)
    (hn : ∀ b rest, Keeps rest (next b rest)) : Keeps text (r.andThen next) := by
  intro c rest h
  cases r with
  | error fault => cases h
  | ok p => exact Nat.le_trans (hn p.1 p.2 c rest h) (hr p.1 p.2 rfl)

theorem Keeps.andThen_takes {r : Reading β} {next : β → List Char → Reading γ}
    (hr : Keeps text r) (hn : ∀ b rest, Takes rest (next b rest)) :
    Takes text (r.andThen next) := by
  intro c rest h
  cases r with
  | error fault => cases h
  | ok p => exact Nat.lt_of_lt_of_le (hn p.1 p.2 c rest h) (hr p.1 p.2 rfl)

theorem Takes.map {r : Reading β} (hr : Takes text r) (f : β → γ) : Takes text (r.map f) := by
  intro c rest h
  cases r with
  | error fault => cases h
  | ok p =>
    cases h
    exact hr p.1 p.2 rfl

theorem Keeps.map {r : Reading β} (hr : Keeps text r) (f : β → γ) : Keeps text (r.map f) := by
  intro c rest h
  cases r with
  | error fault => cases h
  | ok p =>
    cases h
    exact hr p.1 p.2 rfl

/-- A step of a loop: from a state to the next one, or to a result. -/
structure Step (σ β : Type) where
  run : σ → List Char → Reading (σ ⊕ β)
  takes : ∀ s text, Takes text (run s text)

/-- Repeats a step until it gives a result. -/
def iterate (step : Step σ β) (s : σ) (text : List Char) : Reading β :=
  match _h : step.run s text with
  | .error fault => .error fault
  | .ok (.inr b, rest) => .ok (b, rest)
  | .ok (.inl s', rest) => iterate step s' rest
termination_by text.length
decreasing_by exact step.takes _ _ _ _ _h

theorem iterate_eq (step : Step σ β) (s : σ) (text : List Char) :
    iterate step s text =
      match step.run s text with
      | .error fault => .error fault
      | .ok (.inr b, rest) => .ok (b, rest)
      | .ok (.inl s', rest) => iterate step s' rest := by
  rw [iterate]
  split <;> simp_all

theorem takes_iterate (step : Step σ β) (s : σ) (text : List Char) :
    Takes text (iterate step s text) := by
  fun_induction iterate step s text with
  | case1 => exact .error _
  | case2 s text b rest h => exact .ok (step.takes _ _ _ _ h)
  | case3 s text s' rest h ih => exact ih.of_le (Nat.le_of_lt (step.takes _ _ _ _ h))

def isBlank (c : Char) : Bool := c == ' ' || c == '\t' || c == '\n' || c == '\r'

def skipBlanks (text : List Char) : List Char := text.dropWhile isBlank

theorem length_skipBlanks_le (text : List Char) : (skipBlanks text).length ≤ text.length :=
  (List.dropWhile_sublist _).length_le

theorem length_lt_of_skipBlanks {c : Char} {rest : List Char} (h : skipBlanks text = c :: rest) :
    rest.length < text.length := by
  have := length_skipBlanks_le text
  simp [h] at this
  omega

/-- Reads exactly the given characters. -/
def readWord : List Char → List Char → Reading Unit
  | [], text => .ok ((), text)
  | _ :: _, [] => .error .truncated
  | w :: word, c :: text => if c = w then readWord word text else .error .malformed

theorem keeps_readWord (word text : List Char) : Keeps text (readWord word text) := by
  induction word generalizing text with
  | nil => exact .ok (Nat.le_refl _)
  | cons w word ih =>
    cases text with
    | nil => exact (Takes.error _).keeps
    | cons c text =>
      rw [readWord]
      split
      · exact ((ih text).cons c).keeps
      · exact (Takes.error _).keeps

theorem readWord_append (word rest : List Char) :
    readWord word (word ++ rest) = .ok ((), rest) := by
  induction word with
  | nil => rfl
  | cons w word ih => simpa [readWord] using ih

end TopicIndex.Json
