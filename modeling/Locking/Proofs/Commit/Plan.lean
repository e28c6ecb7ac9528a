import Locking.Proofs.Commit.Ledger

/-! The calls of a commit, told from the stores and their replies alone.  All stores prepare before
any of them commits, a phase ends with the first store that fails, and if one has failed all of them
are rolled back. -/

namespace Locking

/-- Why a phase fails when a store answers so, if it does. -/
def Phase.error? : Phase → Store → Reply → Option Error
  | prepare, store, a => a.prepareError? store
  | commit, store, a => a.commitError? store
  | rollback, _, _ => none

namespace Commit

/-- How stores answer the calls that are made for one transaction, each of which asks another store
or for another phase. -/
abbrev Answers := Phase → Store → Reply

section Plan

variable (answers : Answers)

/-- Why a store fails in a phase, if it does. -/
def failure? (phase : Phase) (store : Store) : Option Error :=
  phase.error? store (answers phase store)

/-- The stores that a phase comes to: those up to the first one that fails, or all of them. -/
def reached (phase : Phase) : List Store → List Store
  | [] => []
  | store :: rest => store :: if (failure? answers phase store).isSome then [] else reached phase rest

/-- Why the first store that fails in a phase does so. -/
def firstFailure? (phase : Phase) (stores : List Store) : Option Error :=
  stores.findSome? (failure? answers phase)

/-- The calls that are left when some stores are still to commit, out of all that take part. -/
def commits (all stores : List Store) : List (Phase × Store) :=
  (reached answers .commit stores).map (.commit, ·) ++
    if (firstFailure? answers .commit stores).isSome then all.map (.rollback, ·) else []

/-- The calls that are left when some stores are still to prepare, out of all that take part. -/
def prepares (all stores : List Store) : List (Phase × Store) :=
  (reached answers .prepare stores).map (.prepare, ·) ++
    if (firstFailure? answers .prepare stores).isSome then all.map (.rollback, ·)
    else commits answers all all

/-- The calls of a commit, which asks the stores to prepare first or does not. -/
def plan (twoPhase : Bool) (stores : List Store) : List (Phase × Store) :=
  if twoPhase then prepares answers stores stores else commits answers stores stores

/-- Why a commit fails, if it does. -/
def planError? (twoPhase : Bool) (stores : List Store) : Option Error :=
  if twoPhase then (firstFailure? answers .prepare stores).or (firstFailure? answers .commit stores)
  else firstFailure? answers .commit stores

/-- The contacts that a call makes for a transaction: the first `n` of the calls that it has to make
have been answered, and the next one is open. -/
def contacts (c : CallId) (r : TransactionRef) (calls : List (Phase × Store)) (n : Nat) : History :=
  (calls.take n).map (fun (phase, store) => ⟨c, ⟨store, r, phase⟩, some (answers phase store)⟩) ++
    ((calls.drop n).take 1).map fun (phase, store) => ⟨c, ⟨store, r, phase⟩, none⟩

end Plan

/-- What a commit returns. -/
def outcome : Option Error → Outcome
  | none => .ok .unit
  | some error => .failed error

/-- The state in which a commit leaves its transaction. -/
def finalState : Option Error → State
  | none => .committed
  | some _ => .aborted

/-- Every store where its key occurs for the first time. -/
def firsts : List Store → List Store
  | [] => []
  | store :: rest => store :: (firsts rest).filter (·.key ≠ store.key)

/-- Whether no store in a list has the key of this one. -/
def isNew (known : List Store) (store : Store) : Bool := known.all (·.key != store.key)

/-! ### One store after the other -/

variable {answers : Answers} {phase : Phase} {store : Store} {all rest : List Store}
  {c : CallId} {r : TransactionRef} {n : Nat} {call : Phase × Store} {calls : List (Phase × Store)}
  {error : Error}

section Next

variable (h : failure? answers phase store = none)

include h

theorem reached_cons_of_none : reached answers phase (store :: rest) =
    store :: reached answers phase rest := by
  simp [reached, h]

theorem firstFailure?_cons_of_none : firstFailure? answers phase (store :: rest) =
    firstFailure? answers phase rest := by
  simp [firstFailure?, h]

end Next

section Fails

variable (h : failure? answers phase store = some error)

include h

theorem reached_cons_of_some : reached answers phase (store :: rest) = [store] := by
  simp [reached, h]

theorem firstFailure?_cons_of_some : firstFailure? answers phase (store :: rest) = some error := by
  simp [firstFailure?, h]

end Fails

theorem commits_cons_of_none (h : failure? answers .commit store = none) :
    commits answers all (store :: rest) = (.commit, store) :: commits answers all rest := by
  simp [commits, reached_cons_of_none h, firstFailure?_cons_of_none h]

theorem commits_cons_of_some (h : failure? answers .commit store = some error) :
    commits answers all (store :: rest) = (.commit, store) :: all.map (.rollback, ·) := by
  simp [commits, reached_cons_of_some h, firstFailure?_cons_of_some h]

theorem prepares_cons_of_none (h : failure? answers .prepare store = none) :
    prepares answers all (store :: rest) = (.prepare, store) :: prepares answers all rest := by
  simp [prepares, reached_cons_of_none h, firstFailure?_cons_of_none h]

theorem prepares_cons_of_some (h : failure? answers .prepare store = some error) :
    prepares answers all (store :: rest) = (.prepare, store) :: all.map (.rollback, ·) := by
  simp [prepares, reached_cons_of_some h, firstFailure?_cons_of_some h]

theorem prepares_nil : prepares answers all [] = commits answers all all := by
  simp [prepares, reached, firstFailure?]

theorem commits_nil : commits answers all [] = [] := by
  simp [commits, reached, firstFailure?]

theorem contacts_zero : contacts answers c r (call :: calls) 0 =
    [⟨c, ⟨call.2, r, call.1⟩, none⟩] := rfl

theorem contacts_succ : contacts answers c r (call :: calls) (n + 1) =
    ⟨c, ⟨call.2, r, call.1⟩, some (answers call.1 call.2)⟩ :: contacts answers c r calls n := rfl

theorem contacts_nil : contacts answers c r [] n = [] := by simp [contacts]

end Commit

end Locking
