import Locking.Lock.Basic
import Locking.Lock.Name
import Locking.Error
import Locking.Store

/-! Calls in progress.  A call runs on until it returns, falls asleep on a lock or calls a store;
in the last two cases it is kept together with the point at which it goes on. -/

namespace Locking

/-- The use that a call makes of its transaction.  An exclusive use excludes all others; calls
that name a transaction by its number make none. -/
inductive Access where
  | unowned
  | shared
  | exclusive
deriving DecidableEq, Repr, Inhabited

namespace Access

/-- Whether a call may start while another one is in progress. -/
def permits : Access → Access → Bool
  | unowned, _ => true
  | _, unowned => true
  | shared, shared => true
  | _, _ => false

end Access

structure Need where
  entity : EntityId
  mode : LockMode
deriving DecidableEq, Repr, Inhabited

/-- What a granted request is for. -/
inductive Goal where
  /-- The caller wanted this lock and no more. -/
  | single
  /-- The lock of `entity` enters the lock set, and the locks in `rest` are needed next. -/
  | plan (entity : EntityId) (rest : List Need)
deriving DecidableEq, Repr, Inhabited

/-- Why a transaction is rolled back, which decides what the call returns afterwards. -/
inductive Cause where
  /-- A request or a commit failed; the call returns the error. -/
  | failure (error : Error)
  | request
  /-- The manager removes the transaction; its waiting request is woken up afterwards. -/
  | removal
deriving DecidableEq, Repr

/-- Where a call goes on. -/
inductive Point where
  /-- Its request is asleep on a lock, or has been notified and is about to look again. -/
  | waiting (lock : LockName) (deadline : Deadline) (goal : Goal)
  /-- It waits for a store to prepare; the stores in `rest` come next. -/
  | preparing (store : Store) (rest : List Store)
  | committing (store : Store) (rest : List Store)
  | rollingBack (store : Store) (rest : List Store) (cause : Cause)
deriving DecidableEq, Repr

/-- A call in progress on behalf of a transaction. -/
structure Call where
  transaction : TransactionRef
  access : Access
  point : Point
deriving DecidableEq, Repr

inductive Value where
  | unit
  | flag (b : Bool)
  | id (i : TransactionId)
deriving DecidableEq, Repr, Inhabited

inductive Outcome where
  | ok (value : Value)
  | failed (error : Error)
deriving DecidableEq, Repr

/-- How far a call has come. -/
inductive Response where
  | returned (outcome : Outcome)
  | asleep (call : CallId)
  /-- The call goes on when the store has replied. -/
  | storeCall (call : CallId) (request : StoreCall)
  /-- Nothing happens: the transaction is in use or gone, or what is named does not exist. -/
  | refused
deriving DecidableEq, Repr

def Response.outcome? : Response → Option Outcome
  | returned outcome => some outcome
  | _ => none

end Locking
