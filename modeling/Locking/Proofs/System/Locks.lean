import Locking.Proofs.System.Release
import Locking.Proofs.System.Stage

/-! How the locks of a system change.  A request changes a lock when it looks at it, and a waiter is
taken off its lock when it wakes up; apart from that locks are only released and notified. -/

namespace Locking

/-- The lock that a request is about to look at. -/
def Stage.lock? : Stage → Option LockName
  | looking _ _ name .. => some name
  | _ => none

/-- A relation between a lock and what becomes of it that admits releases and notifications. -/
structure Lock.Lenient (R : Lock → Lock → Prop) : Prop where
  refl : ∀ l, R l l
  trans : ∀ {l l' l''}, R l l' → R l' l'' → R l l''
  notify : ∀ l, R l l.notify
  release : ∀ l i, R l (l.release i)

namespace System

variable {s : System} {name other : LockName} {f : Lock → Lock}

/-! ### Changes of one lock -/

theorem lockAt_modifyLock_self (hl : name ∈ s.locks) :
    (s.modifyLock name f).lockAt name = f (s.lockAt name) := by
  rw [lockAt_modifyLock s name name f hl, if_pos rfl]

theorem lockAt_modifyLock_ne (hn : other ≠ name) :
    (s.modifyLock name f).lockAt other = s.lockAt other := by
  simp only [lockAt, modifyLock, Std.ExtTreeMap.getElem?_modify, Std.LawfulEqOrd.compare_eq_iff_eq,
    if_neg (Ne.symm hn)]

theorem modifyLock_of_not_mem (hl : name ∉ s.locks) : (s.modifyLock name f).lockAt other =
    s.lockAt other := by
  by_cases hn : other = name
  · subst hn
    rw [lockAt_of_not_mem hl, lockAt_of_not_mem (mt mem_locks_modifyLock.mp hl)]
  · exact lockAt_modifyLock_ne hn

/-! ### What becomes of every lock -/

section Rel

variable {R : Lock → Lock → Prop} (hr : ∀ l, R l l)

include hr

/-- Changing a lock takes every lock to itself or to what becomes of it. -/
theorem rel_modifyLock (hf : name ∈ s.locks → R (s.lockAt name) (f (s.lockAt name)))
    (other : LockName) : R (s.lockAt other) ((s.modifyLock name f).lockAt other) := by
  by_cases hl : name ∈ s.locks
  · by_cases hn : other = name
    · subst hn
      rw [lockAt_modifyLock_self hl]
      exact hf hl
    · rw [lockAt_modifyLock_ne hn]
      exact hr _
  · rw [modifyLock_of_not_mem hl]
    exact hr _

theorem rel_releaseAll {r : TransactionRef} (hf : ∀ l, R l (l.release r.id)) (name : LockName) :
    R (s.lockAt name) ((s.releaseAll r).lockAt name) := by
  by_cases hl : name ∈ s.locks
  · rw [lockAt_releaseAll hl]
    split
    · exact hf _
    · exact hr _
  · rw [lockAt_of_not_mem hl, lockAt_of_not_mem (mt mem_locks_releaseAll.mp hl)]
    exact hr _

theorem rel_alert (hf : ∀ l, R l l.notify) (r : TransactionRef) (name : LockName) :
    R (s.lockAt name) ((s.alert r).lockAt name) := by
  obtain ha | ⟨other, ha⟩ := alert_eq s r <;> rw [ha]
  · exact hr _
  · exact rel_modifyLock hr (fun _ => hf _) name

end Rel

end System

/-! ### Changes of all locks -/

namespace Lock.Lenient

open Locking.System

variable {R : Lock → Lock → Prop} {s s' : System} {p p' : Stage} {e : Event} {name : LockName}
  {f : Lock → Lock}

theorem modifyLock (h : Lenient R)
    (hf : name ∈ s.locks → R (s.lockAt name) (f (s.lockAt name))) (other : LockName) :
    R (s.lockAt other) ((s.modifyLock name f).lockAt other) :=
  rel_modifyLock h.refl hf other

theorem addLock (h : Lenient R) (s : System) (name other : LockName) :
    R (s.lockAt other) ((s.addLock name).lockAt other) := by
  rw [lockAt_addLock]
  exact h.refl _

theorem releaseAll (h : Lenient R) (s : System) (r : TransactionRef) (name : LockName) :
    R (s.lockAt name) ((s.releaseAll r).lockAt name) :=
  rel_releaseAll h.refl (fun l => h.release l r.id) name

theorem alert (h : Lenient R) (s : System) (r : TransactionRef) (name : LockName) :
    R (s.lockAt name) ((s.alert r).lockAt name) :=
  rel_alert h.refl h.notify r name

/-- The end of a transaction is the release of its locks. -/
theorem ended (h : Lenient R) (s : System) (r : TransactionRef) (state : State)
    (statistics : Statistics) (name : LockName) : R (s.lockAt name)
      ((((s.setState r state).retire r).setStatistics statistics).lockAt name) := by
  have hreleased := h.releaseAll (s.setState r state) r name
  rw [lockAt_setState] at hreleased
  rw [lockAt_setStatistics, lockAt_retire]
  exact hreleased

/-- Only a look does more to a lock than to release or to notify it. -/
theorem advance (h : Lenient R) (ha : Advance s p s' p') (hp : p.lock? = none)
    (name : LockName) : R (s.lockAt name) (s'.lockAt name) := by
  cases ha with
  | sleep | grant | fail => exact absurd hp (by simp [Stage.lock?])
  | refuse | covered | ask => exact h.addLock s _ name
  | giveBack => exact h.modifyLock (f := (Lock.release · _)) (fun _ => h.release _ _) name
  | undone | committed => exact h.ended s _ _ _ name
  | removed => exact h.trans (h.ended s _ _ _ name) (h.alert _ _ name)
  | _ => exact h.refl _

/-- No start does more to the locks, unless it leads to a look at once. -/
theorem start (h : Lenient R) (hs : Start s e s' p) (hp : p.lock? = none) (name : LockName) :
    R (s.lockAt name) (s'.lockAt name) := by
  cases hs with
  | acquire | upgrade | wake | expire => exact absurd hp (by simp [Stage.lock?])
  | release => exact h.modifyLock (f := (Lock.release · _)) (fun _ => h.release _ _) name
  | interrupt | managerInterrupt => exact h.alert (s.modifyTransaction _ _) _ name
  | unlockAll | forget => exact h.releaseAll s _ name
  | _ => exact h.refl _

end Lock.Lenient

end Locking
