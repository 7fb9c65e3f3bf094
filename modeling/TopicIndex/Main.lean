import TopicIndex.Broker

/-!
# The demonstration as a program

Writes what the demonstration shows. The environment variable `RUST_LOG` selects the log lines;
without it there are none.
-/

open TopicIndex

def main : IO UInt32 := do
  let filter? := match ← IO.getEnv "RUST_LOG" with
    | some text => Log.Filter.ofText? text
    | none => some .silent
  match filter?, Demonstration.run with
  | none, _ =>
    IO.eprintln "a directive for the log ends within a character"
    return 101
  | some filter, .ok demonstration =>
    for line in demonstration.lines filter do
      IO.println line
    return 0
  | _, .error e =>
    IO.eprintln e.message
    return 1
