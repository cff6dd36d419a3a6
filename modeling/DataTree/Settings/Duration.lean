/-!
# Texts of durations

A duration of whole milliseconds is written in milliseconds below a second
and in seconds from there on, with as many decimals as it needs.
-/

namespace DataTree

/-- Milliseconds below a second as decimals, without trailing zeros. -/
def fractionText (ms : Nat) : String :=
  if ms = 0 then ""
  else if ms % 100 = 0 then s!".{ms / 100}"
  else if ms % 10 = 0 then s!".{ms / 100}{ms / 10 % 10}"
  else s!".{ms / 100}{ms / 10 % 10}{ms % 10}"

/-- The text of a duration: `250ms`, `5s`, `1.5s`; of none at all `0ns`. -/
def durationText (ms : Nat) : String :=
  if ms = 0 then "0ns"
  else if ms < 1000 then s!"{ms}ms"
  else s!"{ms / 1000}{fractionText (ms % 1000)}s"

end DataTree
