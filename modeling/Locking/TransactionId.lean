import Std.Data.ExtTreeSet

/-! The names of transactions.  Locks and the wait-for graph know a transaction by its number
alone; every manager numbers its own transactions, so a transaction as a whole is named by its
manager and its number. -/

namespace Locking

/-- The number of a transaction within its manager. -/
abbrev TransactionId := Nat

abbrev IdSet := Std.ExtTreeSet TransactionId

theorem IdSet.mem_insert {s : IdSet} {i j : TransactionId} : j ∈ s.insert i ↔ j = i ∨ j ∈ s := by
  rw [Std.ExtTreeSet.mem_insert, Nat.compare_eq_eq, eq_comm]

theorem IdSet.mem_erase {s : IdSet} {i j : TransactionId} : j ∈ s.erase i ↔ j ≠ i ∧ j ∈ s := by
  rw [Std.ExtTreeSet.mem_erase, ne_eq, Nat.compare_eq_eq, eq_comm]

theorem IdSet.mem_ofList {l : List TransactionId} {i : TransactionId} :
    i ∈ (Std.ExtTreeSet.ofList l : IdSet) ↔ i ∈ l := by
  simp [Std.ExtTreeSet.mem_ofList]

theorem IdSet.isEmpty_iff {s : IdSet} : s.isEmpty = true ↔ ∀ i, i ∉ s := by
  rw [Std.ExtTreeSet.isEmpty_iff, Std.ExtTreeSet.eq_empty_iff_forall_not_mem]

/-- A transaction, named by its manager and its number. -/
structure TransactionRef where
  manager : Nat
  id : TransactionId
deriving DecidableEq, Repr, Inhabited

namespace TransactionRef

/-- Transactions are ordered by their managers, and those of one manager by their numbers. -/
instance : Ord TransactionRef := ⟨compareLex (compareOn manager) (compareOn id)⟩

instance : Std.TransOrd TransactionRef :=
  inferInstanceAs (Std.TransCmp (compareLex (compareOn manager) (compareOn id)))

instance : Std.LawfulEqOrd TransactionRef where
  eq_of_compare {a b} h := by
    have h : (compare a.manager b.manager).then (compare a.id b.id) = .eq := h
    rw [Ordering.then_eq_eq, Nat.compare_eq_eq, Nat.compare_eq_eq] at h
    cases a; cases b; cases h.1; cases h.2; rfl

end TransactionRef

end Locking
