import Locking.Lock.Basic

/-! What the operations on a lock do to the mode in which each transaction holds it. -/

namespace Locking.Lock

variable {l : Lock} {i j : TransactionId}

theorem mem_disown : j ∈ (l.disown i).owners ↔ j ≠ i ∧ j ∈ l.owners := IdSet.mem_erase

@[simp] theorem modeOf_notify : l.notify.modeOf j = l.modeOf j := rfl

@[simp] theorem modeOf_park {c : CallId} {request : Request} :
    (l.park c i request).modeOf j = l.modeOf j := rfl

@[simp] theorem modeOf_rouse {w : Waiter} : (l.rouse w).modeOf j = l.modeOf j := rfl

@[simp] theorem modeOf_abandon : (l.abandon i).modeOf j = l.modeOf j := by
  unfold abandon
  split <;> rfl

theorem modeOf_disown : (l.disown i).modeOf j = if j = i then none else l.modeOf j := by
  by_cases h : j = i
  · simp [modeOf, mem_disown, h]
  · by_cases hj : j ∈ l.owners
    · have he : ¬ (l.owners.erase i).isEmpty = true := fun he =>
        IdSet.isEmpty_iff.mp he j (IdSet.mem_erase.mpr ⟨h, hj⟩)
      rw [modeOf, if_pos (mem_disown.mpr ⟨h, hj⟩), if_neg h, modeOf, if_pos hj]
      exact if_neg he
    · simp [modeOf, mem_disown, h, hj]

theorem modeOf_release : (l.release i).modeOf j = if j = i then none else l.modeOf j :=
  modeOf_disown

/-- An upgrade gives up the hold of one transaction and no other. -/
theorem modeOf_beginUpgrade : (l.beginUpgrade i).modeOf j = if j = i then none else l.modeOf j :=
  modeOf_disown

theorem modeOf_grant_shared :
    (l.grant i .shared).modeOf j = if j = i ∨ j ∈ l.owners then some .shared else none := by
  simp only [modeOf, grant, IdSet.mem_insert]

/-- Any other grant leaves a single owner. -/
theorem modeOf_grant_exclusive {request : Request} (h : request ≠ .shared) :
    (l.grant i request).modeOf j = if j = i then some .exclusive else none := by
  cases request with
  | shared => exact absurd rfl h
  | exclusive | upgrade => simp only [modeOf, grant, IdSet.mem_ofList, List.mem_singleton]

/-- A granted request leaves its transaction with the mode that it asked for. -/
theorem modeOf_grant_self (request : Request) :
    (l.grant i request).modeOf i = some request.mode := by
  cases request with
  | shared => simp [modeOf_grant_shared, Request.mode]
  | exclusive | upgrade => rw [modeOf_grant_exclusive (by simp), if_pos rfl]; rfl

/-- A request is blocked by others only. -/
theorem mem_blockers {request : Request} :
    j ∈ l.blockers i request ↔
      j ≠ i ∧ (j ∈ l.owners ∨ request ≠ .upgrade ∧ j ∈ l.upgraders) := by
  by_cases h : request = .upgrade <;> simp [blockers, h, and_comm, and_or_left]

end Locking.Lock
