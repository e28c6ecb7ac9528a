/-! The modes in which a lock is held, and the kinds of requests that wait for them. -/

namespace Locking

/-- A shared lock is held by any number of transactions, an exclusive one by a single one. -/
inductive LockMode where
  | shared
  | exclusive
deriving DecidableEq, Repr, Inhabited

namespace LockMode

def strongest : LockMode → LockMode → LockMode
  | shared, mode => mode
  | exclusive, _ => exclusive

/-- Whether holding `held` gives all that `wanted` asks for. -/
def covers (held wanted : LockMode) : Bool := held.strongest wanted == held

end LockMode

/-- The kinds of requests.  An upgrade is made by a transaction that holds the lock shared and
wants it exclusively. -/
inductive Request where
  | shared
  | exclusive
  | upgrade
deriving DecidableEq, Repr, Inhabited

namespace Request

/-- The mode in which the lock is held once the request is granted. -/
def mode : Request → LockMode
  | shared => .shared
  | exclusive | upgrade => .exclusive

/-- What a transaction that holds a lock in mode `held` has to request to hold it in mode
`wanted`; nothing if it holds enough already. -/
def of? (held : Option LockMode) (wanted : LockMode) : Option Request :=
  match held, wanted with
  | none, .shared => some shared
  | none, .exclusive => some exclusive
  | some .shared, .exclusive => some upgrade
  | some .shared, .shared => none
  | some .exclusive, _ => none

theorem of?_eq_none_iff {held : Option LockMode} {wanted : LockMode} :
    of? held wanted = none ↔ ∃ mode, held = some mode ∧ mode.covers wanted = true := by
  cases held with
  | none => cases wanted <;> simp [of?]
  | some mode => cases mode <;> cases wanted <;> simp [of?] <;> decide

end Request

/-- How far a request is from the time up to which it waits. -/
inductive Deadline where
  | never
  /-- There is a deadline, and it has not passed yet. -/
  | ahead
  | passed
deriving DecidableEq, Repr, Inhabited

end Locking
