-- Instants and durations as Go computes with them. A duration is a 64-bit count of
-- nanoseconds: sums and products wrap around, and the distance of two instants stops
-- at the ends of the range.
import Mathlib.Data.Int.Order.Basic

namespace prom_fleet.gotime

/-- `time.Second`. -/
def second : Int := 1000000000

def maxDuration : Int := 9223372036854775807
def minDuration : Int := -9223372036854775808

/-- The value of 64-bit arithmetic whose exact result is `n`. -/
def wrap64 (n : Int) : Int := (n + 9223372036854775808) % 18446744073709551616 - 9223372036854775808

variable {n : Int}

theorem wrap64_of_mem (hlow : minDuration ≤ n) (hhigh : n ≤ maxDuration) : wrap64 n = n := by
  unfold minDuration at hlow
  unfold maxDuration at hhigh
  unfold wrap64
  omega

theorem wrap64_mem (n : Int) : minDuration ≤ wrap64 n ∧ wrap64 n ≤ maxDuration := by
  unfold minDuration maxDuration wrap64
  omega

theorem wrap64_le (hn : 0 ≤ n) : wrap64 n ≤ n := by
  unfold wrap64
  omega

/-- `time.Time.Sub`. -/
def timeSub (t u : Int) : Int := max minDuration (min maxDuration (t - u))

/-- The instant at the start of the second of `t`. -/
def truncSecond (t : Int) : Int := t - t % second

theorem lt_truncSecond_add (t : Int) : t < truncSecond t + second := by
  unfold truncSecond second
  omega

/-- The instant of the Unix time zero. -/
def unixEpoch : Int := 62135596800 * second

/-- `time.Time.UnixNano`: a 64-bit count, which wraps around for instants that it cannot
express. -/
def unixNano (t : Int) : Int := wrap64 (t - unixEpoch)

/-- `time.Time.Unix`. -/
def unix (t : Int) : Int := wrap64 ((t - unixEpoch) / second)

/-- `time.Unix`: the seconds are counted in 64 bits from the year 1. -/
def timeUnix (sec nsec : Int) : Int :=
  wrap64 (sec + nsec / second + 62135596800) * second + nsec % second

/-- `time.Time.Add`: the seconds stop at the ends of their range. -/
def timeAdd (t d : Int) : Int :=
  let sec := (t + d) / second
  let nsec := (t + d) % second
  if maxDuration < sec then maxDuration * second + nsec
  else if sec < minDuration then -maxDuration * second + nsec
  else t + d

/-- The first instant that RFC 3339 cannot write: the start of the year 10000, in
nanoseconds since the start of the year 1. -/
def year10000 : Int := 315537897600 * second

end prom_fleet.gotime
