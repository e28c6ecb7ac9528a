import Locking.Scenario.Session

/-! What is seen of a system between two steps of a scenario. -/

namespace Locking.Scenario

structure TransactionRow where
  handle : String
  id : TransactionId
  state : State
  isInterrupted : Bool
  locked : List EntityId
  stores : List String
  /-- The state that its manager tells, if it lists the transaction. -/
  registered : Option State
deriving DecidableEq, Repr

structure LockRow where
  name : LockName
  mode : Option LockMode
  holders : List TransactionId
deriving DecidableEq, Repr

structure GraphView where
  /-- The waiting transactions among those that were mentioned, and whom they wait for. -/
  rows : List (TransactionId × List TransactionId)
  size : Nat
  isEmpty : Bool
deriving DecidableEq, Repr

structure View where
  transactions : List TransactionRow
  locks : List LockRow
  graph : GraphView
  managers : List (List TransactionId)
  /-- The number of entities whose locks have been asked for. -/
  tableSize : Nat
  statistics : Statistics
deriving DecidableEq, Repr

/-- What has changed from one view to the next.  Rows that are gone are not mentioned. -/
structure Change where
  transactions : List TransactionRow
  locks : List LockRow
  graph : Option GraphView
  managers : Option (List (List TransactionId))
  tableSize : Option Nat
  statistics : Option Statistics
deriving DecidableEq, Repr

namespace Session

def transactionRows (s : Session) : List TransactionRow :=
  s.handles.toList.filterMap fun (handle, r) =>
    let t := s.system.transactionAt r
    if t.isOwned then
      some
        { handle, id := r.id, state := t.state, isInterrupted := t.isInterrupted
          locked := t.lockedEntities, stores := t.stores.map (·.name)
          registered := s.system.registeredState? r }
    else none

def lockRows (s : Session) : List LockRow :=
  s.system.locks.toList.map fun (name, l) => ⟨name, l.heldMode, l.holders⟩

def graphView (s : Session) : GraphView where
  rows := s.mentioned.toList.filterMap fun i =>
    match s.system.graph.waitsFor i with
    | [] => none
    | blockers => some (i, blockers)
  size := s.system.graph.size
  isEmpty := s.system.graph.isEmpty

def view (s : Session) : View where
  transactions := s.transactionRows
  locks := s.lockRows
  graph := s.graphView
  managers := (List.range s.system.begun.length).map s.system.registered
  tableSize := s.system.tableSize
  statistics := s.system.statistics

end Session

/-- A value, if it is not the one before. -/
def changed? {α : Type} [DecidableEq α] (before now : α) : Option α :=
  if now = before then none else some now

def View.changeSince (now before : View) : Change where
  transactions := now.transactions.filter fun row => !before.transactions.contains row
  locks := now.locks.filter fun row => !before.locks.contains row
  graph := changed? before.graph now.graph
  managers := changed? before.managers now.managers
  tableSize := changed? before.tableSize now.tableSize
  statistics := changed? before.statistics now.statistics

theorem View.changeSince_self (v : View) :
    v.changeSince v = ⟨[], [], none, none, none, none⟩ := by
  simp [changeSince, changed?]

end Locking.Scenario
