import TopicIndex.Log.Record

/-!
# Levels

How much of a log is let through, and the names of levels: words in any case, or the numbers from
`0` for silence to `5`.
-/

namespace TopicIndex.Log

inductive Level where
  | off
  /-- The given severity and all graver ones. -/
  | upTo (s : Severity)
deriving DecidableEq

namespace Level

def lets : Level → Severity → Bool
  | off, _ => false
  | upTo bound, s => s.rank ≤ bound.rank

def ofRank? : Nat → Option Level
  | 0 => some off
  | 1 => some (upTo .error)
  | 2 => some (upTo .warn)
  | 3 => some (upTo .info)
  | 4 => some (upTo .debug)
  | 5 => some (upTo .trace)
  | _ => none

def ofWord? (word : String) : Option Level :=
  match word.toLower with
  | "off" => some off
  | "error" => some (upTo .error)
  | "warn" => some (upTo .warn)
  | "info" => some (upTo .info)
  | "debug" => some (upTo .debug)
  | "trace" => some (upTo .trace)
  | _ => none

/-- A number is decimal digits, with any zeros and at most one plus sign in front. -/
def ofNumber? (text : List Char) : Option Level :=
  let digits := if text.head? = some '+' then text.tail else text
  if digits = [] ∨ digits.any (!·.isDigit) then none
  else
    match digits.dropWhile (· == '0') with
    | [] => some off
    | [d] => ofRank? (d.toNat - 48)
    | _ => none

def ofText? (text : String) : Option Level := (ofNumber? text.toList).orElse fun _ => ofWord? text

end Level

end TopicIndex.Log
