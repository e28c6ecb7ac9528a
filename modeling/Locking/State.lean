/-! The states in the life of a transaction. -/

namespace Locking

/-- A transaction is active until it begins to commit or to abort. -/
inductive State where
  | active
  | committing
  | committed
  | aborting
  | aborted
deriving DecidableEq, Repr, Inhabited

namespace State

def code : State → Nat
  | active => 0
  | committing => 1
  | committed => 2
  | aborting => 3
  | aborted => 4

/-- The state with a number; every number past the last one stands for `aborted`. -/
def ofCode : Nat → State
  | 0 => active
  | 1 => committing
  | 2 => committed
  | 3 => aborting
  | _ => aborted

@[simp] theorem ofCode_code (s : State) : ofCode s.code = s := by cases s <;> rfl

theorem code_injective {s t : State} (h : s.code = t.code) : s = t := by
  rw [← ofCode_code s, h, ofCode_code]

/-- States are ordered by their numbers, which is the order in which a transaction meets them. -/
instance : Ord State := ⟨compareOn code⟩

def name : State → String
  | active => "Active"
  | committing => "Committing"
  | committed => "Committed"
  | aborting => "Aborting"
  | aborted => "Aborted"

/-- Whether the transaction has ended, so that its state never changes again. -/
def isFinal : State → Bool
  | committed | aborted => true
  | _ => false

/-- Whether the transaction can still be rolled back. -/
def canRollBack : State → Bool
  | active | committing => true
  | _ => false

end State

end Locking
