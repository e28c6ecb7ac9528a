import Locking.System.Basic

/-! How transactions end: their stores are rolled back, their locks are released, and their
manager no longer lists them. -/

namespace Locking.System

/-! ### Release -/

/-- Releases one lock on behalf of transaction number `i`, which also drops it from the wait-for
graph. -/
def release (s : System) (i : TransactionId) (name : LockName) : System :=
  { s.modifyLock name (·.release i) with graph := s.graph.remove i }

/-- Releases every lock in the lock set of a transaction, innermost entities first. -/
def releaseAll (s : System) (r : TransactionRef) : System :=
  (s.transactionAt r).lockedEntities.reverse.foldl (fun s e => s.release r.id (.entity e))
    (s.modifyTransaction r fun t => { t with lockSet := ∅ })

/-- Releases every lock in the lock set of a transaction, and drops it from the wait-for graph
even if there is none. -/
def forget (s : System) (r : TransactionRef) : System :=
  let s := s.releaseAll r
  { s with graph := s.graph.remove r.id }

/-- Releases what an ended transaction still has, and takes it off its manager's list. -/
def retire (s : System) (r : TransactionRef) : System :=
  (s.forget r).modifyTransaction r fun t => { t with isRegistered := false }

/-! ### Rollback -/

/-- What a call returns once its transaction has been rolled back, or cannot be. -/
def conclusion (s : System) (c : CallId) (r : TransactionRef) : Cause → System × Response
  | .failure error => s.conclude c (.failed error)
  | .request => s.conclude c (.ok .unit)
  | .removal => (s.alert r).conclude c (.ok .unit)

/-- Rolls back the stores that are left, and then ends the transaction.  Locks are released only
after the last store has replied. -/
def rollBackStores (s : System) (c : CallId) (r : TransactionRef) (access : Access)
    (cause : Cause) : List Store → System × Response
  | [] =>
    let s := (s.setState r .aborted).retire r
    conclusion { s with statistics := s.statistics.countRollback } c r cause
  | store :: rest =>
    (s.suspend c ⟨r, access, .rollingBack store rest cause⟩, .storeCall c ⟨store, r, .rollback⟩)

/-- Rolls a transaction back unless it has ended or is being rolled back already. -/
def rollBack (s : System) (c : CallId) (r : TransactionRef) (access : Access) (cause : Cause) :
    System × Response :=
  if (s.transactionAt r).state.canRollBack then
    (s.setState r .aborting).rollBackStores c r access cause (s.transactionAt r).stores
  else s.conclusion c r cause

def abort (s : System) (c : CallId) (r : TransactionRef) (error : Error) : System × Response :=
  { s with statistics := s.statistics.countFailure error }.rollBack c r .shared (.failure error)

/-- Removes a transaction on behalf of its manager.  It has to be listed and active; its owner
finds it interrupted. -/
def remove (s : System) (c : CallId) (r : TransactionRef) : System × Response :=
  match s.registeredState? r with
  | none => (s, .returned (.failed .notFound))
  | some .active =>
    (s.modifyTransaction r fun t => { t with state := .aborting, isInterrupted := true })
      |>.rollBackStores c r .unowned .removal (s.transactionAt r).stores
  | some state => (s, .returned (.failed (.unexpectedState state)))

/-! ### Commit -/

/-- Asks the stores that are left to commit, and then ends the transaction. -/
def commitStores (s : System) (c : CallId) (r : TransactionRef) : List Store → System × Response
  | [] =>
    let s := (s.setState r .committed).retire r
    { s with statistics := s.statistics.countCommit }.conclude c (.ok .unit)
  | store :: rest =>
    (s.suspend c ⟨r, .exclusive, .committing store rest⟩, .storeCall c ⟨store, r, .commit⟩)

/-- Asks the stores that are left to prepare, and then all of them to commit. -/
def prepareStores (s : System) (c : CallId) (r : TransactionRef) : List Store → System × Response
  | [] => s.commitStores c r (s.transactionAt r).stores
  | store :: rest =>
    (s.suspend c ⟨r, .exclusive, .preparing store rest⟩, .storeCall c ⟨store, r, .prepare⟩)

/-- Commits a transaction.  One that was interrupted is rolled back instead. -/
def commit (s : System) (c : CallId) (r : TransactionRef) : System × Response :=
  let t := s.transactionAt r
  if t.isInterrupted ∧ t.state ≠ .committed then
    s.rollBack c r .exclusive (.failure .interrupted)
  else if t.state ≠ .active then (s, .returned (.failed (.unexpectedState t.state)))
  else if s.twoPhaseCommit r.manager then (s.setState r .committing).prepareStores c r t.stores
  else (s.setState r .committing).commitStores c r t.stores

def reply (s : System) (c : CallId) (answer : Reply) : System × Response :=
  match s.calls[c]? with
  | some ⟨r, access, .preparing store rest⟩ =>
    match answer with
    | .done => s.prepareStores c r rest
    | .declined => s.rollBack c r access (.failure (.prepareFailed store.name "voted to abort"))
    | .failed message => s.rollBack c r access (.failure (.prepareFailed store.name message))
  | some ⟨r, access, .committing store rest⟩ =>
    match answer with
    | .failed message => s.rollBack c r access (.failure (.commitFailed store.name message))
    | _ => s.commitStores c r rest
  | some ⟨r, access, .rollingBack _ rest cause⟩ =>
    let statistics := match answer with
      | .failed _ => s.statistics.countStoreRollbackFailure
      | _ => s.statistics
    { s with statistics }.rollBackStores c r access cause rest
  | _ => (s, .refused)

end Locking.System
