import Std.Data.ExtTreeMap
import Locking.Granularity
import Locking.Config
import Locking.Statistics
import Locking.Transaction
import Locking.Call
import Locking.WaitForGraph

/-! A lock manager, the transaction managers that share it, their transactions, and the calls in
progress.  This module holds the parts, how to read them, and how to change one of them. -/

namespace Locking

/-- A lock manager with its transaction managers and transactions. -/
structure System where
  granularity : Granularity
  /-- The configurations of the transaction managers. -/
  configs : List Config
  /-- How long a lock request of a transaction waits, if not for ever. -/
  lockWaitTimeout : Option Duration
  /-- Whether calls are so slow now that a deadline passes before a new request has looked at its
  first lock. -/
  isLate : Bool := false
  /-- For every transaction manager the number of transactions that it has begun. -/
  begun : List Nat
  locks : Std.ExtTreeMap LockName Lock := ∅
  graph : WaitForGraph := {}
  statistics : Statistics := {}
  transactions : Std.ExtTreeMap TransactionRef Transaction := ∅
  calls : Std.ExtTreeMap CallId Call := ∅
  /-- A number that no call in progress has. -/
  nextCall : CallId := 0

namespace System

/-- A fresh system with a transaction manager for each of the configurations.  Commits go by the
configuration of the manager that began the transaction, lock requests by that of the lock
manager. -/
def new (granularity : Granularity) (configs : List Config) (lockConfig : Config) : System where
  granularity := granularity
  configs := configs
  lockWaitTimeout := lockConfig.lockWaitTimeout
  begun := List.replicate configs.length 0

/-! ### Views -/

/-- The lock of a name; a lock that nobody has asked for is free. -/
def lockAt (s : System) (name : LockName) : Lock := s.locks[name]?.getD default

/-- The lock of an entity, if it has ever been asked for. -/
def lock? (s : System) (e : EntityId) : Option Lock := s.locks[LockName.entity e]?

/-- The number of entities whose locks have been asked for. -/
def tableSize (s : System) : Nat :=
  (s.locks.keys.filterMap LockName.entity?).length

/-- A transaction; one that was never begun has touched nothing. -/
def transactionAt (s : System) (r : TransactionRef) : Transaction :=
  s.transactions[r]?.getD default

/-- The state of a transaction that a manager lists. -/
def registeredState? (s : System) (r : TransactionRef) : Option State :=
  match s.transactions[r]? with
  | some t => if t.isRegistered then some t.state else none
  | none => none

/-- The transactions that a manager lists, ascending. -/
def registered (s : System) (manager : Nat) : List TransactionId :=
  s.transactions.toList.filterMap fun (r, t) =>
    if r.manager = manager ∧ t.isRegistered then some r.id else none

/-- Whether the stores of a manager's transactions are asked to prepare before any of them
commits. -/
def twoPhaseCommit (s : System) (manager : Nat) : Bool :=
  (s.configs[manager]?.getD {}).twoPhaseCommit

/-- The deadline of a lock request that a transaction makes now.  A lock that can be granted is
granted even after the deadline, so a deadline that passes between two looks of one call may as well
have passed before the first of them: when the call began, or when it woke up. -/
def lockDeadline (s : System) : Deadline :=
  match s.lockWaitTimeout with
  | none => .never
  | some d => if d.nanoseconds = 0 ∨ s.isLate then .passed else .ahead

/-- Whether a call may use a transaction now: its owner still has it, and no call in progress
stands in the way. -/
def admits (s : System) (r : TransactionRef) (access : Access) : Bool :=
  s.transactions.contains r && (s.transactionAt r).isOwned &&
    s.calls.toList.all fun (_, c) => c.transaction ≠ r || c.access.permits access

/-! ### Changes of one part -/

/-- Changes the lock of a name, if it has been asked for. -/
def modifyLock (s : System) (name : LockName) (f : Lock → Lock) : System :=
  { s with locks := s.locks.modify name f }

/-- Enters a lock that has not been asked for before. -/
def addLock (s : System) (name : LockName) : System :=
  { s with locks := s.locks.insertIfNew name default }

def modifyTransaction (s : System) (r : TransactionRef) (f : Transaction → Transaction) : System :=
  { s with transactions := s.transactions.modify r f }

def setState (s : System) (r : TransactionRef) (state : State) : System :=
  s.modifyTransaction r fun t => { t with state }

/-- Notes the lock on which a transaction waits, or that it does not. -/
def setWaitingOn (s : System) (r : TransactionRef) (name : Option LockName) : System :=
  s.modifyTransaction r fun t => { t with waitingOn := name }

/-- Keeps a call that cannot go on at once. -/
def suspend (s : System) (c : CallId) (call : Call) : System :=
  { s with calls := s.calls.insert c call, nextCall := max s.nextCall (c + 1) }

def conclude (s : System) (c : CallId) (outcome : Outcome) : System × Response :=
  ({ s with calls := s.calls.erase c }, .returned outcome)

/-- Notifies the lock on which a transaction waits. -/
def alert (s : System) (r : TransactionRef) : System :=
  match (s.transactionAt r).waitingOn with
  | some name => s.modifyLock name Lock.notify
  | none => s

theorem transactionAt_modifyTransaction (s : System) (r q : TransactionRef)
    (f : Transaction → Transaction) (h : r ∈ s.transactions) :
    (s.modifyTransaction r f).transactionAt q =
      if q = r then f (s.transactionAt r) else s.transactionAt q := by
  simp only [transactionAt, modifyTransaction, Std.ExtTreeMap.getElem?_modify,
    Std.LawfulEqOrd.compare_eq_iff_eq, eq_comm (a := q)]
  split
  · rw [Std.ExtTreeMap.getElem?_eq_some_getElem h]; rfl
  · rfl

theorem lockAt_modifyLock (s : System) (name other : LockName) (f : Lock → Lock)
    (h : name ∈ s.locks) :
    (s.modifyLock name f).lockAt other =
      if other = name then f (s.lockAt name) else s.lockAt other := by
  simp only [lockAt, modifyLock, Std.ExtTreeMap.getElem?_modify,
    Std.LawfulEqOrd.compare_eq_iff_eq, eq_comm (a := other)]
  split
  · rw [Std.ExtTreeMap.getElem?_eq_some_getElem h]; rfl
  · rfl

@[simp] theorem lockAt_addLock (s : System) (name other : LockName) :
    (s.addLock name).lockAt other = s.lockAt other := by
  simp only [lockAt, addLock, Std.ExtTreeMap.getElem?_insertIfNew,
    Std.LawfulEqOrd.compare_eq_iff_eq]
  split
  · next h =>
    obtain ⟨rfl, h⟩ := h
    rw [Std.ExtTreeMap.getElem?_eq_none h]; rfl
  · rfl

end System

end Locking
