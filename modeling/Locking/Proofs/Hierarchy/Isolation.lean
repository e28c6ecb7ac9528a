import Locking.Proofs.Hierarchy.Contained
import Locking.Proofs.System.Schedule

/-! Isolation under the hierarchical granularity.  Who has an exclusive lock on a container keeps
all others from the locks inside, except for those that have given up their hold of the container
to upgrade it, and those that are being rolled back. -/

namespace Locking

namespace System

variable {t : TransactionId}

theorem mem_owners_of_modeOf {l : Lock} {mode : LockMode} (h : l.modeOf t = some mode) :
    t ∈ l.owners := by
  by_contra hn
  rw [Lock.modeOf, if_neg hn] at h
  exact absurd h (by simp)

end System

namespace Crowd

open Locking.System

variable {k : Crowd} {t v : TransactionId} {c e : EntityId}

end Crowd

namespace System

/-- The lock inside is still held after a failed upgrade, while the stores are being rolled back. -/
example :
    let s := (System.new .hierarchical [{}] {}).run [.begin 0, .begin 0,
      .register ⟨0, 1⟩ ⟨0, "store"⟩, .lock ⟨0, 1⟩ ⟨["a", "b"]⟩ .exclusive,
      .lock ⟨0, 2⟩ ⟨["a"]⟩ .shared, .lock ⟨0, 1⟩ ⟨["a"]⟩ .exclusive, .interrupt ⟨0, 1⟩, .wake 0,
      .lock ⟨0, 2⟩ ⟨["a"]⟩ .exclusive]
    (s.lockAt (.entity ⟨["a"]⟩)).modeOf 2 = some .exclusive ∧
      (s.lockAt (.entity ⟨["a", "b"]⟩)).modeOf 1 = some .exclusive ∧
        1 ∉ (s.lockAt (.entity ⟨["a"]⟩)).upgraders := by
  decide +kernel

/-- So it is after the manager has removed a transaction that was asleep with an upgrade. -/
example :
    let s := (System.new .hierarchical [{}] {}).run [.begin 0, .begin 0,
      .register ⟨0, 1⟩ ⟨0, "store"⟩, .lock ⟨0, 1⟩ ⟨["a", "b"]⟩ .exclusive,
      .lock ⟨0, 2⟩ ⟨["a"]⟩ .shared, .lock ⟨0, 1⟩ ⟨["a"]⟩ .exclusive, .remove ⟨0, 1⟩, .wake 0,
      .lock ⟨0, 2⟩ ⟨["a"]⟩ .exclusive]
    (s.lockAt (.entity ⟨["a"]⟩)).modeOf 2 = some .exclusive ∧
      (s.lockAt (.entity ⟨["a", "b"]⟩)).modeOf 1 = some .exclusive ∧
        1 ∉ (s.lockAt (.entity ⟨["a"]⟩)).upgraders := by
  decide +kernel

/-- A call has locked the container, and goes on to lock what is inside after its transaction has given
back all its locks. -/
example :
    let s := (System.new .hierarchical [{}] {}).run [.begin 0, .begin 0]
    ∃ k ∈ (Crowd.still s).runs? (fun _ _ => true) [
        .event (.lock ⟨0, 1⟩ ⟨["a", "b"]⟩ .exclusive), .advance 0, .advance 0, .advance 0,
        .event (.unlockAll ⟨0, 1⟩), .advance 0, .advance 0, .advance 0, .advance 0,
        .event (.lock ⟨0, 2⟩ ⟨["a"]⟩ .exclusive), .advance 0, .advance 0, .advance 0, .advance 0],
      (k.system.lockAt (.entity ⟨["a"]⟩)).modeOf 2 = some .exclusive ∧
        (k.system.lockAt (.entity ⟨["a", "b"]⟩)).modeOf 1 = some .exclusive ∧
          (k.system.transactionAt ⟨0, 1⟩).state = .active := by
  decide +kernel

end System

end Locking
