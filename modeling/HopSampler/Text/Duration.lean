/-!
# Durations in messages

A duration in whole milliseconds is shown in milliseconds below one second and in seconds from there
on, with as many decimals as it needs. The empty duration is shown in nanoseconds.
-/

namespace HopSampler

/-- A duration in milliseconds. -/
abbrev Milliseconds := UInt64

namespace Text

/-- The decimals of a count of thousandths below one thousand: three digits without trailing zeros,
after a point; nothing for zero. -/
def thousandths (n : Nat) : String :=
  if n = 0 then ""
  else if n % 100 = 0 then "." ++ toString (n / 100)
  else if n % 10 = 0 then "." ++ (if n < 100 then "0" else "") ++ toString (n / 10)
  else "." ++ (if n < 10 then "00" else if n < 100 then "0" else "") ++ toString n

/-- A duration as text. -/
def duration (d : Milliseconds) : String :=
  let n := d.toNat
  if n = 0 then "0ns"
  else if n < 1000 then toString n ++ "ms"
  else toString (n / 1000) ++ thousandths (n % 1000) ++ "s"

example : duration 0 = "0ns" := rfl

/-- A number of hundredths, with two decimals. -/
def hundredths (n : Nat) : String :=
  toString (n / 100) ++ "." ++ (if n % 100 < 10 then "0" else "") ++ toString (n % 100)

/-- A time that was measured, in nanoseconds: with two decimals in the largest unit that it
fills. -/
def elapsed (nanoseconds : Nat) : String :=
  if nanoseconds < 1000 then hundredths (nanoseconds * 100) ++ "ns"
  else if nanoseconds < 1000000 then hundredths (nanoseconds / 10) ++ "µs"
  else if nanoseconds < 1000000000 then hundredths (nanoseconds / 10000) ++ "ms"
  else hundredths (nanoseconds / 10000000) ++ "s"

end Text

end HopSampler
