/-! The parameters of a lock manager and its transaction managers. -/

namespace Locking

/-- A span of time in nanoseconds. -/
structure Duration where
  nanoseconds : Nat
deriving DecidableEq, Repr, Inhabited

namespace Duration

def ofSeconds (seconds rest : Nat) : Duration := ⟨seconds * 1000000000 + rest⟩

def ofMilliseconds (n : Nat) : Duration := ⟨n * 1000000⟩

def seconds (d : Duration) : Nat := d.nanoseconds / 1000000000

/-- What is left of a span past its whole seconds, in nanoseconds. -/
def rest (d : Duration) : Nat := d.nanoseconds % 1000000000

def milliseconds (d : Duration) : Nat := d.nanoseconds / 1000000

@[simp] theorem seconds_ofSeconds {s r : Nat} (h : r < 1000000000) :
    (ofSeconds s r).seconds = s := by
  simp only [ofSeconds, seconds]; omega

@[simp] theorem rest_ofSeconds {s r : Nat} (h : r < 1000000000) : (ofSeconds s r).rest = r := by
  simp only [ofSeconds, rest]; omega

@[simp] theorem milliseconds_ofMilliseconds (n : Nat) : (ofMilliseconds n).milliseconds = n := by
  simp only [ofMilliseconds, milliseconds]; omega

end Duration

/-- The parameters of a lock manager and its transaction managers: whether stores are asked to
prepare before any of them commits, and how long a lock request waits, if not for ever. -/
structure Config where
  twoPhaseCommit : Bool := true
  lockWaitTimeout : Option Duration := none
deriving DecidableEq, Repr, Inhabited

end Locking
