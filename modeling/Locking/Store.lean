import Locking.TransactionId

/-! Stores are what a transaction works on.  The commit protocol calls them in phases, and each
call is answered by a reply. -/

namespace Locking

inductive Phase where
  | prepare
  | commit
  | rollback
deriving DecidableEq, Repr, Inhabited

namespace Phase

def name : Phase → String
  | prepare => "Prepare"
  | commit => "Commit"
  | rollback => "Rollback"

end Phase

/-- How a store answers a call. -/
inductive Reply where
  | done
  /-- The store votes against the transaction, which only counts while preparing. -/
  | declined
  /-- The store could not process the call. -/
  | failed (message : String)
deriving DecidableEq, Repr, Inhabited

/-- A store as transactions know it.  Two stores are the same if their keys are; names only
appear in messages. -/
structure Store where
  key : Nat
  name : String
deriving DecidableEq, Repr, Inhabited

/-- A call of a store on behalf of a transaction. -/
structure StoreCall where
  store : Store
  transaction : TransactionRef
  phase : Phase
deriving DecidableEq, Repr, Inhabited

/-- The calls that a store has met, as transaction and phase, in order of arrival. -/
abbrev Journal := List (TransactionId × Phase)

/-- A store in memory that accepts every call and keeps a journal of them. -/
structure VolatileStore where
  name : String
  journal : Journal := []
deriving DecidableEq, Repr, Inhabited

namespace VolatileStore

def record (s : VolatileStore) (i : TransactionId) (phase : Phase) : VolatileStore :=
  { s with journal := s.journal ++ [(i, phase)] }

def call (s : VolatileStore) (i : TransactionId) (phase : Phase) : VolatileStore × Reply :=
  (s.record i phase, .done)

/-- The phases in which the store was called for a transaction. -/
def phasesOf (s : VolatileStore) (i : TransactionId) : List Phase :=
  (s.journal.filter fun entry => entry.1 == i).map Prod.snd

@[simp] theorem phasesOf_record (s : VolatileStore) (i j : TransactionId) (phase : Phase) :
    (s.record i phase).phasesOf j = s.phasesOf j ++ if i = j then [phase] else [] := by
  by_cases h : i = j <;> simp [phasesOf, record, h]

end VolatileStore

end Locking
