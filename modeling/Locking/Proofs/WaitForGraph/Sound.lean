import Mathlib.Data.Set.Card
import Locking.Proofs.WaitForGraph.Cycles

/-! What holds of the wait-for graph whatever was done to it.  It is acyclic, and a transaction has
an entry only while it waits for somebody, so the entries count the transactions that wait. -/

namespace Locking.WaitForGraph

open Relation

variable {g : WaitForGraph} {i : TransactionId}

/-- What can be done to a wait-for graph. -/
inductive Change where
  | wait (requester : TransactionId) (blockers : List TransactionId)
  | stopWaiting (requester : TransactionId)
  | remove (transaction : TransactionId)
deriving DecidableEq, Repr

/-- The graph once `change` was made, whatever `wait` answered. -/
def apply (g : WaitForGraph) : Change → WaitForGraph
  | .wait i blockers => (g.wait i blockers).1
  | .stopWaiting i => g.stopWaiting i
  | .remove i => g.remove i

/-- The graph after `changes`, when at first nobody waits. -/
def after (changes : List Change) : WaitForGraph := changes.foldl apply {}

theorem after_concat (changes : List Change) (change : Change) :
    after (changes ++ [change]) = (after changes).apply change := by
  simp [after]

/-- Nobody waits for themselves, and nobody has an entry without waiting for somebody. -/
structure Sound (g : WaitForGraph) : Prop where
  acyclic : g.Acyclic
  nonempty : ∀ (i : TransactionId) (blockers : IdSet), g.edges[i]? = some blockers → blockers ≠ ∅

theorem Sound.default : Sound {} where
  acyclic := Acyclic.default
  nonempty i blockers h := by simp at h

/-! ### One change -/

theorem Sound.stopWaiting (h : g.Sound) (i : TransactionId) : (g.stopWaiting i).Sound where
  acyclic := h.acyclic.stopWaiting i
  nonempty j blockers hj := by
    simp only [WaitForGraph.stopWaiting, Std.ExtTreeMap.getElem?_erase, Nat.compare_eq_eq] at hj
    split at hj
    · exact absurd hj (by simp)
    · exact h.nonempty j blockers hj

theorem Sound.remove (h : g.Sound) (i : TransactionId) : (g.remove i).Sound where
  acyclic := h.acyclic.remove i
  nonempty j blockers hj := by
    rw [WaitForGraph.remove, Std.ExtTreeMap.getElem?_filterMap'] at hj
    obtain ⟨before, -, hkept⟩ := Option.bind_eq_some_iff.mp hj
    split at hkept
    · exact absurd hkept (by simp)
    · next hne =>
      obtain rfl := Option.some.inj hkept
      exact fun he => hne (Std.ExtTreeSet.isEmpty_iff.mpr he)

theorem Sound.wait (h : g.Sound) (i : TransactionId) (blockers : List TransactionId) :
    (g.wait i blockers).1.Sound where
  acyclic := h.acyclic.wait i blockers
  nonempty j others hj := by
    have hrest := (h.stopWaiting i).nonempty j others
    simp only [WaitForGraph.wait] at hj
    split at hj
    · exact hrest hj
    · next hne =>
      split at hj
      · exact hrest hj
      · rw [Std.ExtTreeMap.getElem?_insert] at hj
        split at hj
        · obtain rfl := Option.some.inj hj
          exact fun he => hne (Std.ExtTreeSet.isEmpty_iff.mpr he)
        · exact hrest hj

theorem Sound.apply (h : g.Sound) (change : Change) : (g.apply change).Sound := by
  cases change with
  | wait i blockers => exact h.wait i blockers
  | stopWaiting i => exact h.stopWaiting i
  | remove i => exact h.remove i

/-! ### Any number of changes -/

theorem Sound.after (changes : List Change) : (after changes).Sound := by
  induction changes using List.reverseRecOn with
  | nil => exact Sound.default
  | append_singleton changes change ih =>
    rw [after_concat]
    exact ih.apply change

/-- With no empty entries, the transactions that have one are those that wait for somebody. -/
theorem Sound.mem_edges_iff (h : g.Sound) : i ∈ g.edges ↔ g.waitsFor i ≠ [] := by
  rw [waitsFor, blockersOf, ne_eq, Std.ExtTreeSet.toList_eq_nil_iff]
  cases hi : g.edges[i]? with
  | none => simpa using hi
  | some blockers =>
    have hmem : i ∈ g.edges := Std.ExtTreeMap.mem_iff_isSome_getElem?.mpr (by rw [hi]; rfl)
    exact ⟨fun _ => h.nonempty i blockers hi, fun _ => hmem⟩

theorem Sound.encard_waiting (h : g.Sound) : {i | g.waitsFor i ≠ []}.encard = g.size := by
  have hkeys : {i | g.waitsFor i ≠ []} = (g.edges.keys.toFinset : Set TransactionId) := by
    ext i
    simp [← h.mem_edges_iff]
  rw [hkeys, Set.encard_coe_eq_coe_finsetCard,
    List.toFinset_card_of_nodup Std.ExtTreeMap.nodup_keys, Std.ExtTreeMap.length_keys, size]

theorem Sound.isEmpty_iff (h : g.Sound) : g.isEmpty = true ↔ ∀ i, g.waitsFor i = [] := by
  rw [isEmpty, Std.ExtTreeMap.isEmpty_iff, Std.ExtTreeMap.eq_empty_iff_forall_not_mem]
  refine forall_congr' fun i => ?_
  rw [h.mem_edges_iff, ne_eq, Decidable.not_not]

/-- However transactions come to wait, stop waiting and are removed, none of them reaches itself
along one or more edges, none is among those it waits for itself, and none is kept with nobody to
wait for.  The size of the graph is therefore the number of transactions that wait for somebody,
and the graph is empty just when nobody waits. -/
theorem acyclic_and_counted (changes : List Change) : let g := after changes
    (∀ i, ¬ TransGen g.Waits i i) ∧ (∀ i, i ∉ g.waitsFor i) ∧
      (∀ (i : TransactionId) (blockers : IdSet), g.edges[i]? = some blockers → blockers ≠ ∅) ∧
      {i | g.waitsFor i ≠ []}.encard = g.size ∧
      (g.isEmpty = true ↔ ∀ i, g.waitsFor i = []) := by
  intro g
  have hg : g.Sound := Sound.after changes
  refine ⟨hg.acyclic, ?_, hg.nonempty, hg.encard_waiting, hg.isEmpty_iff⟩
  intro i hself
  exact hg.acyclic i (.single (Std.ExtTreeSet.mem_toList.mp hself))

end Locking.WaitForGraph
