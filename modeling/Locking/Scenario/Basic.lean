import Locking.System.Basic

/-! Scenarios: scripts of steps against one system, with stores that follow scripts of their
own. -/

namespace Locking.Scenario

/-- What a scripted store does while it is being called.  Without a number the calling transaction
is meant. -/
inductive Hook where
  | state (i : Option TransactionId)
  | interrupt (i : Option TransactionId)
  | remove (i : Option TransactionId)
  | probe (e : EntityId)
deriving DecidableEq, Repr

structure Behaviour where
  hooks : List Hook := []
  reply : Reply := .done
deriving DecidableEq, Repr

/-- How a scripted store behaves, and the manager that its hooks turn to. -/
structure StoreScript where
  manager : Nat := 0
  behaviour : Phase → Behaviour

/-- A store of a scenario.  Without a script it accepts every call. -/
structure ScriptedStore where
  volatile : VolatileStore
  script : Option StoreScript := none

inductive Step where
  | begin (handle : String) (manager : Nat)
  | lock (handle : String) (e : EntityId) (mode : LockMode)
  | lockAll (handle : String) (requests : List Need)
  | acquire (handle : String) (name : LockName) (mode : LockMode) (timeout : Option Nat)
  | upgrade (handle : String) (name : LockName) (timeout : Option Nat)
  | release (i : TransactionId) (name : LockName)
  | modeOf (i : TransactionId) (name : LockName)
  | register (handle : String) (store : Nat)
  | commit (handle : String)
  | rollback (handle : String)
  | drop (handle : String)
  | interrupt (handle : String)
  | managerInterrupt (r : TransactionRef)
  | remove (r : TransactionRef)
  | state (r : TransactionRef)
  | unlockAll (handle : String)
  | forget (handle : String)
  | probe (e : EntityId)
  | wait (i : TransactionId) (blockers : List TransactionId)
  | stopWaiting (i : TransactionId)
  | removeWaits (i : TransactionId)
deriving DecidableEq, Repr

structure Script where
  granularity : Granularity := .hierarchical
  config : Config := {}
  lockConfig : Config := {}
  managers : Nat := 1
  stores : List ScriptedStore := []
  steps : List Step := []

/-- What is seen of the lock of an entity: whether anyone has asked for it, and who holds it. -/
structure Probe where
  isKnown : Bool
  mode : Option LockMode
  holders : List TransactionId
deriving DecidableEq, Repr

inductive Finding where
  | state (state : Option State)
  | outcome (outcome : Outcome)
  | probe (probe : Probe)
deriving DecidableEq, Repr

/-- A call of a scripted store, with the findings of its hooks. -/
structure LogEntry where
  store : Nat
  transaction : TransactionId
  phase : Phase
  findings : List Finding
deriving DecidableEq, Repr

inductive Result where
  | outcome (outcome : Outcome)
  | mode (mode : Option LockMode)
  | state (state : Option State)
  | probe (probe : Probe)
  | blocked
  /-- The transaction is in use by a call in progress, or its owner no longer has it. -/
  | busy
  /-- Nobody has asked for the lock. -/
  | noLock
deriving DecidableEq, Repr

end Locking.Scenario
