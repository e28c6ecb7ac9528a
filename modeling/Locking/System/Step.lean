import Locking.System.Acquire

/-! The events that a system meets, and what each of them does.  Calls in progress stand still
between events, so a list of events is a schedule. -/

namespace Locking

inductive Event where
  | begin (manager : Nat)
  | lock (r : TransactionRef) (e : EntityId) (mode : LockMode)
  | lockAll (r : TransactionRef) (requests : List Need)
  | acquire (r : TransactionRef) (name : LockName) (mode : LockMode) (deadline : Deadline)
  /-- A transaction upgrades its hold of a single lock. -/
  | upgrade (r : TransactionRef) (name : LockName) (deadline : Deadline)
  /-- A lock is released on behalf of a transaction number. -/
  | release (i : TransactionId) (name : LockName)
  | register (r : TransactionRef) (store : Store)
  | commit (r : TransactionRef)
  | rollback (r : TransactionRef)
  | drop (r : TransactionRef)
  /-- Whoever has the means to interrupt a transaction does so. -/
  | interrupt (r : TransactionRef)
  /-- A manager interrupts a transaction that it lists. -/
  | managerInterrupt (r : TransactionRef)
  | remove (r : TransactionRef)
  | unlockAll (r : TransactionRef)
  /-- The lock manager releases all locks of a transaction and drops it from the wait-for graph. -/
  | forget (r : TransactionRef)
  /-- A transaction number is entered into the wait-for graph. -/
  | wait (i : TransactionId) (blockers : List TransactionId)
  /-- What a transaction number waits for is dropped from the wait-for graph. -/
  | stopWaiting (i : TransactionId)
  /-- A transaction number is dropped from the wait-for graph on both sides. -/
  | removeWaits (i : TransactionId)
  /-- A sleeping call wakes up, notified or not. -/
  | wake (c : CallId)
  /-- The deadline of a sleeping call passes. -/
  | expire (c : CallId)
  /-- From now on the deadlines of new requests pass before they have looked, or do not. -/
  | pace (isLate : Bool)
  | reply (c : CallId) (answer : Reply)
deriving DecidableEq, Repr

namespace System

/-- Begins a transaction; every manager counts its own from one. -/
def begin (s : System) (manager : Nat) : System × Response :=
  match s.begun[manager]? with
  | none => (s, .refused)
  | some n =>
    ({ s with
        begun := s.begun.set manager (n + 1)
        transactions := s.transactions.insert ⟨manager, n + 1⟩ {} },
      .returned (.ok (.id (n + 1))))

/-- Registers a store with an active transaction, and tells whether it is new there. -/
def register (s : System) (r : TransactionRef) (store : Store) : System × Response :=
  let t := s.transactionAt r
  if t.state ≠ .active then (s, .returned (.failed (.unexpectedState t.state)))
  else if t.stores.any (·.key == store.key) then (s, .returned (.ok (.flag false)))
  else
    (s.modifyTransaction r fun t => { t with stores := t.stores ++ [store] },
      .returned (.ok (.flag true)))

/-- Interrupts a transaction and notifies the lock on which it waits. -/
def interrupt (s : System) (r : TransactionRef) : System :=
  (s.modifyTransaction r fun t => { t with isInterrupted := true }).alert r

/-- Lets `act` use a transaction, unless the transaction does not admit it. -/
def withAccess (s : System) (r : TransactionRef) (access : Access)
    (act : System → System × Response) : System × Response :=
  if s.admits r access then act s else (s, .refused)

/-- Lets `act` use a lock, unless nobody has asked for the lock. -/
def withLock (s : System) (name : LockName) (act : System → System × Response) :
    System × Response :=
  if s.locks.contains name then act s else (s, .refused)

/-- What an event does.  A new call gets the number `s.nextCall`. -/
def step (s : System) : Event → System × Response
  | .begin manager => s.begin manager
  | .lock r e mode => s.withAccess r .shared fun s => s.lock s.nextCall r e mode
  | .lockAll r requests => s.withAccess r .shared fun s => s.lockAll s.nextCall r requests
  | .acquire r name mode deadline =>
    s.withAccess r .shared fun s => s.withLock name fun s =>
      s.acquire s.nextCall r name mode deadline
  | .upgrade r name deadline =>
    s.withAccess r .shared fun s => s.withLock name fun s => s.upgrade s.nextCall r name deadline
  | .release i name => s.withLock name fun s => (s.release i name, .returned (.ok .unit))
  | .register r store => s.withAccess r .shared fun s => s.register r store
  | .commit r => s.withAccess r .exclusive fun s => s.commit s.nextCall r
  | .rollback r =>
    s.withAccess r .exclusive fun s => s.rollBack s.nextCall r .exclusive .request
  | .drop r =>
    s.withAccess r .exclusive fun s =>
      (s.modifyTransaction r fun t => { t with isOwned := false })
        |>.rollBack s.nextCall r .exclusive .request
  | .interrupt r =>
    if s.transactions.contains r then (s.interrupt r, .returned (.ok (.id r.id)))
    else (s, .refused)
  | .managerInterrupt r =>
    if (s.registeredState? r).isSome then (s.interrupt r, .returned (.ok .unit))
    else (s, .returned (.failed .notFound))
  | .remove r => s.remove s.nextCall r
  | .unlockAll r => s.withAccess r .shared fun s => (s.releaseAll r, .returned (.ok .unit))
  | .forget r => s.withAccess r .shared fun s => (s.forget r, .returned (.ok .unit))
  | .wait i blockers =>
    match s.graph.wait i blockers with
    | (graph, .ok ()) => ({ s with graph }, .returned (.ok .unit))
    | (graph, .error error) => ({ s with graph }, .returned (.failed error))
  | .stopWaiting i =>
    ({ s with graph := s.graph.stopWaiting i }, .returned (.ok .unit))
  | .removeWaits i => ({ s with graph := s.graph.remove i }, .returned (.ok .unit))
  | .wake c => s.wake c
  | .expire c => s.expire c
  | .pace isLate => ({ s with isLate }, .returned (.ok .unit))
  | .reply c answer => s.reply c answer

end System

end Locking
