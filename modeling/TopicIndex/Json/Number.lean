import TopicIndex.Json.Reader

/-!
# JSON numbers

Numbers are only read to be turned down or passed over, so a number is a significand of 64 bits and
a power of ten, without its sign. Digits that do not fit the significand are left out. A number
asked for by value has to be in the range of doubles, which its value as a product of two doubles
decides.
-/

namespace TopicIndex.Json

structure Number where
  significand : Nat
  exponent : Int

namespace Number

def ofDigits (digits : List Char) : Nat :=
  digits.foldl (fun n c => 10 * n + (c.toNat - 48)) 0

/-- Appends digits to a number while it fits 64 bits, and counts those that are left. -/
def gather (n : Nat) : List Char → Nat × Nat
  | [] => (n, 0)
  | c :: digits =>
    let next := 10 * n + (c.toNat - 48)
    if next < UInt64.size then gather next digits else (n, digits.length + 1)

/-- Each digit left out before the point counts as a zero, each one behind it not at all. -/
def ofParts (whole fraction : List Char) (power : Int) : Number :=
  let (n, omitted) := gather 0 whole
  let (significand, unread) := gather n fraction
  ⟨significand, omitted + power - (fraction.length - unread : Nat)⟩

/-- The nearest number with 53 binary digits and zeros behind them, of two equally near the even
one. -/
def nearest (n : Nat) : Nat :=
  let unit := 1 <<< (n.log2 - 52)
  let quotient := n / unit
  let twice := 2 * (n % unit)
  if unit < twice ∨ twice = unit ∧ quotient % 2 = 1 then (quotient + 1) * unit
  else quotient * unit

/-- The least number that is nearer to 2^1024 than to any double, or equally near. -/
def bound : Nat := ((1 <<< 54) - 1) <<< 970

/-- No power of ten above the 308th is a double. -/
def isTooLarge (n : Number) : Bool :=
  n.significand != 0 && 0 ≤ n.exponent &&
    (308 < n.exponent || bound ≤ nearest n.significand * nearest (Nat.pow 10 n.exponent.toNat))

/-- At least one digit. A text that ends here has the fault `early`. -/
def readDigits (early : Fault) (text : List Char) : Reading (List Char) :=
  match text.takeWhile Char.isDigit with
  | [] => .error (if text = [] then early else .malformed)
  | c :: digits => .ok (c :: digits, text.dropWhile Char.isDigit)

/-- A leading zero stands alone. -/
def readWhole (early : Fault) (text : List Char) : Reading (List Char) :=
  (readDigits early text).andThen fun digits rest =>
    match digits with
    | '0' :: _ :: _ => .error .malformed
    | _ => .ok (digits, rest)

def readFraction (early : Fault) : List Char → Reading (List Char)
  | '.' :: rest => readDigits early rest
  | text => .ok ([], text)

def readSign : List Char → Int × List Char
  | '-' :: rest => (-1, rest)
  | '+' :: rest => (1, rest)
  | text => (1, text)

/-- The power of ten behind an `e`. -/
def readPower (early : Fault) : List Char → Reading Int
  | [] => .ok (0, [])
  | c :: rest =>
    if c = 'e' ∨ c = 'E' then
      (readDigits early (readSign rest).2).map fun digits => (readSign rest).1 * ofDigits digits
    else .ok (0, c :: rest)

/-- Reads a number behind its sign. -/
def read (early : Fault) (text : List Char) : Reading Number :=
  (readWhole early text).andThen fun whole rest =>
    (readFraction early rest).andThen fun fraction rest =>
      (readPower early rest).map (ofParts whole fraction)

theorem takes_readDigits (early : Fault) (text : List Char) :
    Takes text (readDigits early text) := by
  unfold readDigits
  split
  · exact .error _
  · next c digits h =>
    have := congrArg List.length (List.takeWhile_append_dropWhile (p := Char.isDigit) (l := text))
    refine .ok ?_
    rw [List.length_append, h, List.length_cons] at this
    omega

theorem takes_readWhole (early : Fault) (text : List Char) :
    Takes text (readWhole early text) := by
  refine (takes_readDigits early text).andThen fun digits rest => ?_
  split
  · exact (Takes.error _).keeps
  · exact .ok (Nat.le_refl _)

theorem keeps_readFraction (early : Fault) (text : List Char) :
    Keeps text (readFraction early text) := by
  unfold readFraction
  split
  · exact ((takes_readDigits early _).keeps.cons _).keeps
  · exact .ok (Nat.le_refl _)

theorem length_readSign_le (text : List Char) : (readSign text).2.length ≤ text.length := by
  unfold readSign
  split <;> simp

theorem keeps_readPower (early : Fault) (text : List Char) :
    Keeps text (readPower early text) := by
  unfold readPower
  split
  · exact .ok (Nat.le_refl _)
  · next c rest =>
    split
    · have := length_readSign_le rest
      exact ((takes_readDigits early _).map _).keeps.takes_of_lt (by simp; omega) |>.keeps
    · exact .ok (Nat.le_refl _)

theorem takes_read (early : Fault) (text : List Char) : Takes text (read early text) :=
  (takes_readWhole early text).andThen fun _ rest =>
    (keeps_readFraction early rest).andThen fun _ rest =>
      (keeps_readPower early rest).map _

end Number

end TopicIndex.Json
