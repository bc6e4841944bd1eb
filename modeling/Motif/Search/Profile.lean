import Motif.Word

/-!
# Profiles of a search

A search reports what each of its steps took in and produced: the position it bound, the number of
walks it started from and the number of candidates it found. There is room for the time each phase
took; a search itself cannot read a clock and leaves these at zero, for a caller who can to fill in.
-/

namespace Motif

/-- A length of time, as whole seconds and nanoseconds below one second. -/
structure Duration where
  seconds : Nat
  nanos : Nat
deriving DecidableEq, Repr

namespace Duration

def zero : Duration := ⟨0, 0⟩

def nanosPerSecond : Nat := 1000000000

/-- The sum of seconds and of any number of nanoseconds. The seconds have to stay a word. -/
def ofParts (seconds nanos : Nat) : Result Duration :=
  let total := seconds + nanos / nanosPerSecond
  if total < Word.bound then return ⟨total, nanos % nanosPerSecond⟩ else breach .bounds

end Duration

/-- What one step of a search took in and produced, and how long its phases took. -/
structure Level where
  position : Nat
  walks : Nat
  candidates : Nat
  mapTime : Duration
  joinTime : Duration
  extendTime : Duration
deriving DecidableEq, Repr

namespace Level

/-- The record of a step that nobody timed. -/
def untimed (position walks candidates : Nat) : Level :=
  ⟨position, walks, candidates, .zero, .zero, .zero⟩

end Level

structure Profile where
  workers : Nat
  levels : List Level
  total : Duration
deriving DecidableEq, Repr

namespace Profile

def blank : Profile := ⟨0, [], .zero⟩

/-- The largest number of walks or candidates in any step. -/
def peak (p : Profile) : Nat := (p.levels.map fun l => max l.walks l.candidates).foldl max 0

end Profile

end Motif
