import Locking.TransactionId
import Locking.Lock.Mode

/-! A lock, the transactions that hold it, and the requests that wait for it.

Every notification of a lock starts a new epoch.  A waiter remembers the epoch in which it fell
asleep, so that on waking up it can tell whether the lock counted it as parked until then. -/

namespace Locking

/-- The number of a call, by which its waiting request is found again. -/
abbrev CallId := Nat

/-- A request that has fallen asleep on a lock. -/
structure Waiter where
  call : CallId
  transaction : TransactionId
  request : Request
  /-- The epoch of the lock in which the request fell asleep. -/
  epoch : Nat
  /-- Whether the lock has been notified since then, so that the request is about to look again. -/
  isNotified : Bool := false
deriving DecidableEq, Repr, Inhabited

/-- A lock with the requests that wait for it. -/
structure Lock where
  /-- The mode in which the owners hold the lock. -/
  mode : Option LockMode := none
  owners : IdSet := ∅
  /-- The transactions that gave up a shared hold and wait for the exclusive one. -/
  upgraders : IdSet := ∅
  /-- The number of requests that fell asleep since the last notification. -/
  parked : Nat := 0
  /-- The number of notifications so far. -/
  epoch : Nat := 0
  waiters : List Waiter := []
deriving DecidableEq

namespace Lock

instance : Inhabited Lock := ⟨{}⟩

/-! ### Views -/

def modeOf (l : Lock) (i : TransactionId) : Option LockMode :=
  if i ∈ l.owners then l.mode else none

/-- The mode in which the lock is held by anyone. -/
def heldMode (l : Lock) : Option LockMode := if l.owners.isEmpty then none else l.mode

def holders (l : Lock) : List TransactionId := l.owners.toList

def waiter? (l : Lock) (call : CallId) : Option Waiter :=
  l.waiters.find? fun w => w.call == call

/-- Whether a request of transaction `i` can be granted.  A shared request stands back behind
pending upgrades and behind every request that is asleep; an upgrade only waits until no other
transaction owns the lock. -/
def grantable (l : Lock) (i : TransactionId) : Request → Bool
  | .shared => (l.owners.isEmpty || l.mode == some .shared) && l.upgraders.isEmpty && l.parked == 0
  | .exclusive => l.owners.isEmpty && l.upgraders.isEmpty
  | .upgrade => l.owners.isEmpty || (l.owners.size == 1 && l.owners.contains i)

/-- The other transactions that a request of transaction `i` has to wait for.  Pending upgrades
are in the way of every request but another upgrade. -/
def blockers (l : Lock) (i : TransactionId) (request : Request) : List TransactionId :=
  let inTheWay := if request = .upgrade then l.owners.toList
    else l.owners.toList ++ l.upgraders.toList
  inTheWay.filter (· ≠ i)

/-! ### Notification and sleep -/

def notify (l : Lock) : Lock :=
  { l with
    parked := 0
    epoch := l.epoch + 1
    waiters := l.waiters.map fun w => { w with isNotified := true } }

def park (l : Lock) (call : CallId) (i : TransactionId) (request : Request) : Lock :=
  { l with
    parked := l.parked + 1
    waiters := l.waiters ++ [{ call, transaction := i, request, epoch := l.epoch }] }

/-- Lets a waiter wake up, by a notification or without one.  If its epoch is still the lock's,
it was counted as parked until now. -/
def rouse (l : Lock) (w : Waiter) : Lock :=
  { l with
    parked := if w.epoch = l.epoch then l.parked - 1 else l.parked
    waiters := l.waiters.filter (·.call ≠ w.call) }

/-! ### Holds -/

/-- Takes a transaction off the owners; a lock without owners is held in no mode. -/
def disown (l : Lock) (i : TransactionId) : Lock :=
  let owners := l.owners.erase i
  { l with owners, mode := if owners.isEmpty then none else l.mode }

/-- Gives up the shared hold of a transaction in order to upgrade it. -/
def beginUpgrade (l : Lock) (i : TransactionId) : Lock :=
  { l.disown i with upgraders := l.upgraders.insert i }

/-- Grants a request.  An exclusive hold replaces all others. -/
def grant (l : Lock) (i : TransactionId) : Request → Lock
  | .shared =>
    { l with
      mode := some .shared, owners := l.owners.insert i, upgraders := l.upgraders.erase i }
  | .exclusive | .upgrade =>
    { l with mode := some .exclusive, owners := .ofList [i], upgraders := l.upgraders.erase i }

/-- Ends a request that failed: a pending upgrade is given up, and the waiters behind it are told
so. -/
def abandon (l : Lock) (i : TransactionId) : Lock :=
  if i ∈ l.upgraders then { l with upgraders := l.upgraders.erase i }.notify else l

/-- Releases the hold or the pending upgrade of a transaction, and notifies all waiters even if it
has neither. -/
def release (l : Lock) (i : TransactionId) : Lock :=
  { l.disown i with upgraders := l.upgraders.erase i }.notify

end Lock

end Locking
