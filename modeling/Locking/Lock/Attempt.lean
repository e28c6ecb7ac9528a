import Locking.Lock.Basic
import Locking.WaitForGraph

/-! What happens when a request that is awake looks at its lock: it is granted, it fails, or it
falls asleep after telling the wait-for graph whom it waits for. -/

namespace Locking

inductive Verdict where
  | granted
  | failed (error : Error)
  | sleeps
deriving DecidableEq, Repr

/-- A request that is about to look at a lock. -/
structure Attempt where
  call : CallId
  transaction : TransactionId
  request : Request
  isInterrupted : Bool
  isLate : Bool
  hasWaited : Bool
deriving DecidableEq, Repr

namespace Attempt

/-- Decides about a request.  An interrupt counts before all else, and a lock that can be granted
is granted even after the deadline.  A request that has to wait is entered into the wait-for
graph, unless that would close a cycle. -/
def judge (a : Attempt) (l : Lock) (g : WaitForGraph) : WaitForGraph × Verdict :=
  if a.isInterrupted then (g, .failed .interrupted)
  else if l.grantable a.transaction a.request then (g, .granted)
  else if a.isLate then (g, .failed .timeout)
  else match g.wait a.transaction (l.blockers a.transaction a.request) with
    | (g, .ok ()) => (g, .sleeps)
    | (g, .error error) => (g, .failed error)

/-- What is left of the wait-for graph when a request comes to its end; only one that has been
asleep is known there. -/
def leave (a : Attempt) (g : WaitForGraph) : WaitForGraph :=
  if a.hasWaited then g.stopWaiting a.transaction else g

/-- Lets a request look at the lock, and does what was decided. -/
def run (a : Attempt) (l : Lock) (g : WaitForGraph) : Lock × WaitForGraph × Verdict :=
  match a.judge l g with
  | (g, .sleeps) => (l.park a.call a.transaction a.request, g, .sleeps)
  | (g, .granted) => (l.grant a.transaction a.request, a.leave g, .granted)
  | (g, .failed error) => (l.abandon a.transaction, a.leave g, .failed error)

end Attempt

end Locking
