import Locking.State

/-! The reasons why a request is refused or fails, and how they are worded. -/

namespace Locking

/-- Why a request is refused, or why a transaction is rolled back instead of doing what was
asked. -/
inductive Error where
  /-- Waiting for the lock would close a cycle of waiting transactions. -/
  | deadlock
  | interrupted
  /-- The deadline of the request passed before the lock could be granted. -/
  | timeout
  /-- A store could not prepare the transaction, or voted to abort it. -/
  | prepareFailed (store reason : String)
  /-- A store could not commit the transaction. -/
  | commitFailed (store reason : String)
  /-- The operation is not allowed in the state that the transaction is in. -/
  | unexpectedState (state : State)
  /-- No transaction with the identifier is registered. -/
  | notFound
deriving DecidableEq, Repr

namespace Error

def message : Error → String
  | deadlock => "transaction aborted to avoid a deadlock"
  | interrupted => "transaction interrupted"
  | timeout => "lock wait timed out"
  | prepareFailed store reason => "store `" ++ store ++ "` failed to prepare: " ++ reason
  | commitFailed store reason => "store `" ++ store ++ "` failed to commit: " ++ reason
  | unexpectedState state => "unexpected transaction state: " ++ state.name
  | notFound => "transaction not found"

/-- Whether the transaction lost a conflict with others, so that it can be tried again. -/
def isRetryable : Error → Bool
  | deadlock | interrupted | timeout => true
  | _ => false

/-- Whether a store is the cause. -/
def isStoreFailure : Error → Bool
  | prepareFailed .. | commitFailed .. => true
  | _ => false

end Error

end Locking
