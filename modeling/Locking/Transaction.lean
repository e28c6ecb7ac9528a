import Std.Data.ExtTreeSet
import Locking.Lock.Name
import Locking.Error
import Locking.Store

/-! Transactions: their states, the locks they hold and the stores they have touched. -/

namespace Locking

/-- A transaction as its manager and its locks know it. -/
structure Transaction where
  state : State := .active
  /-- The entities whose locks the transaction holds, to be released when it ends. -/
  lockSet : Std.ExtTreeSet EntityId := ∅
  /-- The stores that take part, in the order in which they were registered. -/
  stores : List Store := []
  isInterrupted : Bool := false
  /-- The lock that is told when the transaction is interrupted. -/
  waitingOn : Option LockName := none
  isRegistered : Bool := true
  /-- Whether its owner still has it. -/
  isOwned : Bool := true
deriving DecidableEq

namespace Transaction

instance : Inhabited Transaction := ⟨{}⟩

def lockedEntities (t : Transaction) : List EntityId := t.lockSet.toList

/-- Why a lock request is refused: the transaction has to be active.  One that was interrupted and
is being rolled back, or was, is told about the interrupt. -/
def refusal? (t : Transaction) : Option Error :=
  match t.state with
  | .active => none
  | .aborting | .aborted =>
    some (if t.isInterrupted then .interrupted else .unexpectedState t.state)
  | .committing | .committed => some (.unexpectedState t.state)

end Transaction

end Locking
