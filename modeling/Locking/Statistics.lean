import Locking.Error

/-! Counters of what a lock manager and the transactions on it have done. -/

namespace Locking

/-- What has happened so far: lock requests granted, and those of them that had to wait; lock
requests that failed, by cause; transactions that ended; and store rollbacks that failed. -/
structure Statistics where
  granted : Nat := 0
  waited : Nat := 0
  deadlocks : Nat := 0
  interrupts : Nat := 0
  timeouts : Nat := 0
  commits : Nat := 0
  rollbacks : Nat := 0
  storeRollbackFailures : Nat := 0
deriving DecidableEq, Repr, Inhabited

namespace Statistics

def countGrant (s : Statistics) (hasWaited : Bool) : Statistics :=
  { s with granted := s.granted + 1, waited := if hasWaited then s.waited + 1 else s.waited }

/-- Counts a lock request that failed; only the causes of a lost conflict have counters. -/
def countFailure (s : Statistics) : Error → Statistics
  | .deadlock => { s with deadlocks := s.deadlocks + 1 }
  | .interrupted => { s with interrupts := s.interrupts + 1 }
  | .timeout => { s with timeouts := s.timeouts + 1 }
  | _ => s

def countCommit (s : Statistics) : Statistics := { s with commits := s.commits + 1 }

def countRollback (s : Statistics) : Statistics := { s with rollbacks := s.rollbacks + 1 }

def countStoreRollbackFailure (s : Statistics) : Statistics :=
  { s with storeRollbackFailures := s.storeRollbackFailures + 1 }

end Statistics

end Locking
