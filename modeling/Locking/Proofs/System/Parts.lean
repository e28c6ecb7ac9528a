import Mathlib.Tactic.ByContra
import Locking.Lock.Lemmas
import Locking.System.Step

/-! The parts of a system after a change of one of them: its locks, its transactions, its calls in
progress and its wait-for graph. -/

namespace Locking.System

variable {s : System} {r q : TransactionRef} {name other : LockName} {c d : CallId}

/-! ### More changes of one part -/

def setGraph (s : System) (graph : WaitForGraph) : System := { s with graph }

def setStatistics (s : System) (statistics : Statistics) : System := { s with statistics }

/-- Takes a call off the calls in progress, because it goes on or has come to its end. -/
def dismiss (s : System) (c : CallId) : System := { s with calls := s.calls.erase c }

/-! ### Locks -/

theorem mem_locks_modifyLock {f : Lock → Lock} :
    other ∈ (s.modifyLock name f).locks ↔ other ∈ s.locks := Std.ExtTreeMap.mem_modify

theorem mem_locks_addLock : other ∈ (s.addLock name).locks ↔ other = name ∨ other ∈ s.locks := by
  rw [addLock, Std.ExtTreeMap.mem_insertIfNew, Std.LawfulEqOrd.compare_eq_iff_eq, eq_comm]

theorem lockAt_setState (s : System) (r : TransactionRef) (state : State) :
    (s.setState r state).lockAt name = s.lockAt name := rfl

theorem lockAt_setStatistics (s : System) (statistics : Statistics) :
    (s.setStatistics statistics).lockAt name = s.lockAt name := rfl

theorem lockAt_of_not_mem (h : name ∉ s.locks) : s.lockAt name = default := by
  rw [lockAt, Std.ExtTreeMap.getElem?_eq_none h, Option.getD_none]

theorem mem_locks_of_waiter {w : Waiter} (h : w ∈ (s.lockAt name).waiters) : name ∈ s.locks := by
  by_contra hn
  rw [lockAt_of_not_mem hn] at h
  exact absurd h (by simp [default])

/-- A change to the lock as it stands is a change by a function. -/
theorem modifyLock_lockAt (s : System) (name : LockName) (f : Lock → Lock) :
    (s.modifyLock name fun _ => f (s.lockAt name)) = s.modifyLock name f := by
  simp only [modifyLock, System.mk.injEq, true_and, and_true]
  refine Std.ExtTreeMap.ext_getElem? fun k => ?_
  simp only [Std.ExtTreeMap.getElem?_modify, Std.LawfulEqOrd.compare_eq_iff_eq]
  split
  · next h =>
    subst h
    cases hl : s.locks[name]? <;> simp [lockAt, hl]
  · rfl

theorem modifyLock_modifyLock (s : System) (name : LockName) (f g : Lock → Lock) :
    (s.modifyLock name f).modifyLock name g = s.modifyLock name fun l => g (f l) := by
  simp only [modifyLock, System.mk.injEq, true_and, and_true]
  refine Std.ExtTreeMap.ext_getElem? fun k => ?_
  simp only [Std.ExtTreeMap.getElem?_modify, Std.LawfulEqOrd.compare_eq_iff_eq]
  split
  · simp [Option.map_map, Function.comp_def]
  · rfl

/-! ### Transactions -/

theorem mem_transactions_modifyTransaction {f : Transaction → Transaction} :
    q ∈ (s.modifyTransaction r f).transactions ↔ q ∈ s.transactions := Std.ExtTreeMap.mem_modify

/-- A transaction that was never begun has touched nothing. -/
theorem transactionAt_of_not_mem (h : r ∉ s.transactions) : s.transactionAt r = default := by
  rw [transactionAt, Std.ExtTreeMap.getElem?_eq_none h, Option.getD_none]

section Fresh

variable {g : Granularity} {configs : List Config} {lockConfig : Config}

@[simp] theorem lockAt_new : (System.new g configs lockConfig).lockAt name = default :=
  lockAt_of_not_mem (by simp [System.new])

theorem not_mem_waiters_new {w : Waiter} :
    w ∉ ((System.new g configs lockConfig).lockAt name).waiters := by
  simp [default]

@[simp] theorem transactionAt_new :
    (System.new g configs lockConfig).transactionAt r = default :=
  transactionAt_of_not_mem (by simp [System.new])

end Fresh

theorem transactionAt_modifyTransaction_ne {f : Transaction → Transaction} (hq : q ≠ r) :
    (s.modifyTransaction r f).transactionAt q = s.transactionAt q := by
  simp only [transactionAt, modifyTransaction, Std.ExtTreeMap.getElem?_modify,
    Std.LawfulEqOrd.compare_eq_iff_eq, if_neg (Ne.symm hq)]

/-- Changing a transaction takes every transaction to itself or to what becomes of it. -/
theorem rel_modifyTransaction {R : Transaction → Transaction → Prop}
    {f : Transaction → Transaction} (hr : ∀ t, R t t) (hf : ∀ t, R t (f t)) :
    R (s.transactionAt q) ((s.modifyTransaction r f).transactionAt q) := by
  by_cases hq : q ≠ r
  · rw [transactionAt_modifyTransaction_ne hq]
    exact hr _
  obtain rfl : q = r := not_not.mp hq
  by_cases hmem : q ∈ s.transactions
  · rw [transactionAt_modifyTransaction s q q f hmem, if_pos rfl]
    exact hf _
  · rw [transactionAt_of_not_mem hmem,
      transactionAt_of_not_mem (mt mem_transactions_modifyTransaction.mp hmem)]
    exact hr _

/-- What a change of a transaction leaves alone is the same for all transactions. -/
theorem view_modifyTransaction {α : Type} (g : Transaction → α) {f : Transaction → Transaction}
    (hg : ∀ t, g (f t) = g t) :
    g ((s.modifyTransaction r f).transactionAt q) = g (s.transactionAt q) :=
  rel_modifyTransaction (R := fun t t' => g t' = g t) (fun _ => rfl) hg

theorem lockSet_modifyTransaction {f : Transaction → Transaction}
    (hf : ∀ t, (f t).lockSet = t.lockSet) :
    ((s.modifyTransaction r f).transactionAt q).lockSet = (s.transactionAt q).lockSet :=
  view_modifyTransaction Transaction.lockSet hf

theorem state_setWaitingOn {waitingOn : Option LockName} :
    ((s.setWaitingOn r waitingOn).transactionAt q).state = (s.transactionAt q).state :=
  view_modifyTransaction Transaction.state fun _ => rfl

/-! ### Calls -/

theorem calls_suspend {k : Call} :
    (s.suspend c k).calls[d]? = if d = c then some k else s.calls[d]? := by
  simp only [suspend, Std.ExtTreeMap.getElem?_insert, Nat.compare_eq_eq, eq_comm (a := d)]

theorem calls_dismiss : (s.dismiss c).calls[d]? = if d = c then none else s.calls[d]? := by
  simp only [dismiss, Std.ExtTreeMap.getElem?_erase, Nat.compare_eq_eq, eq_comm (a := d)]

theorem suspend_dismiss (s : System) (c : CallId) (k : Call) :
    (s.dismiss c).suspend c k = s.suspend c k := by
  simp only [suspend, dismiss, System.mk.injEq, true_and, and_true]
  refine Std.ExtTreeMap.ext_getElem? fun d => ?_
  simp only [Std.ExtTreeMap.getElem?_insert, Std.ExtTreeMap.getElem?_erase, Nat.compare_eq_eq]
  split <;> rfl

theorem dismiss_of_none (h : s.calls[c]? = none) : s.dismiss c = s := by
  have hc : s.calls.erase c = s.calls := by
    refine Std.ExtTreeMap.ext_getElem? fun d => ?_
    simp only [Std.ExtTreeMap.getElem?_erase, Nat.compare_eq_eq]
    split
    · next hd => rw [← hd, h]
    · rfl
  rw [dismiss, hc]

theorem admits_iff {access : Access} : s.admits r access = true ↔
    r ∈ s.transactions ∧ (s.transactionAt r).isOwned = true ∧
      ∀ (c : CallId) (k : Call), s.calls[c]? = some k → k.transaction = r →
        k.access.permits access = true := by
  simp only [admits, Bool.and_eq_true, Std.ExtTreeMap.contains_iff_mem, List.all_eq_true,
    Bool.or_eq_true, decide_eq_true_eq, and_assoc, Prod.forall,
    Std.ExtTreeMap.mem_toList_iff_getElem?_eq_some]
  refine and_congr_right fun _ => and_congr_right fun _ => forall_congr' fun c =>
    forall_congr' fun k => forall_congr' fun _ => ?_
  rw [ne_eq, ← imp_iff_not_or]

end Locking.System
