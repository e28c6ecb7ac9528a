import Mathlib.Data.List.Nodup
import Locking.Proofs.WaitForGraph.Cycles
import Locking.Proofs.System.Parts

/-! What is left of a system after a transaction has released its locks.  Every lock in its lock
set is released once, and as soon as there is one the transaction is dropped from the wait-for
graph; nothing else is touched. -/

namespace Locking

namespace Transaction

variable {t : Transaction} {e : EntityId}

/-- The names of the locks in the lock set. -/
def lockedNames (t : Transaction) : List LockName := t.lockedEntities.map .entity

theorem mem_lockedEntities : e ∈ t.lockedEntities ↔ e ∈ t.lockSet := Std.ExtTreeSet.mem_toList

theorem nodup_lockedEntities (t : Transaction) : t.lockedEntities.Nodup := by
  have h := Std.ExtTreeSet.distinct_toList (t := t.lockSet)
  exact h.imp fun h he => h (by simp [he])

theorem mem_lockedNames {name : LockName} :
    name ∈ t.lockedNames ↔ ∃ e ∈ t.lockSet, name = .entity e := by
  simp only [lockedNames, List.mem_map, mem_lockedEntities, eq_comm]

end Transaction

namespace System

variable {s : System} {r q : TransactionRef} {name : LockName} {e : EntityId} {c : CallId}
  {a b : TransactionId}

/-! ### The locks of a list of entities -/

/-- The locks after those of some entities were released on behalf of transaction number `i`. -/
def releasedLocks (i : TransactionId) (es : List EntityId)
    (locks : Std.ExtTreeMap LockName Lock) : Std.ExtTreeMap LockName Lock :=
  es.foldl (fun locks e => locks.modify (.entity e) (·.release i)) locks

/-- The wait-for graph after the locks of some entities were released. -/
def releasedGraph (i : TransactionId) (es : List EntityId) (g : WaitForGraph) : WaitForGraph :=
  es.foldl (fun g _ => g.remove i) g

theorem foldl_release (s : System) (i : TransactionId) (es : List EntityId) :
    es.foldl (fun s e => s.release i (.entity e)) s =
      { s with locks := releasedLocks i es s.locks, graph := releasedGraph i es s.graph } := by
  induction es generalizing s with
  | nil => rfl
  | cons e es ih => exact ih (s.release i (.entity e))

theorem getElem?_releasedLocks {i : TransactionId} {es : List EntityId} (hes : es.Nodup)
    {locks : Std.ExtTreeMap LockName Lock} : (releasedLocks i es locks)[name]? =
      if name ∈ es.map .entity then locks[name]?.map fun l : Lock => l.release i
      else locks[name]? := by
  induction es generalizing locks with
  | nil => simp [releasedLocks]
  | cons e es ih =>
    obtain ⟨he, hes⟩ := List.nodup_cons.mp hes
    have hstep : (releasedLocks i (e :: es) locks)[name]? =
        (releasedLocks i es (locks.modify (.entity e) (·.release i)))[name]? := rfl
    rw [hstep, ih hes, Std.ExtTreeMap.getElem?_modify]
    simp only [Std.LawfulEqOrd.compare_eq_iff_eq]
    by_cases hn : name = .entity e
    · subst hn
      simp [he]
    · simp [hn, Ne.symm hn]

theorem waits_releasedGraph {i : TransactionId} {es : List EntityId} {g : WaitForGraph} :
    (releasedGraph i es g).Waits a b ↔ g.Waits a b ∧ (es ≠ [] → a ≠ i ∧ b ≠ i) := by
  induction es generalizing g with
  | nil => simp [releasedGraph]
  | cons e es ih =>
    have hstep : releasedGraph i (e :: es) g = releasedGraph i es (g.remove i) := rfl
    rw [hstep, ih, WaitForGraph.waits_remove]
    constructor
    · rintro ⟨⟨ha, hb, h⟩, -⟩
      exact ⟨h, fun _ => ⟨ha, hb⟩⟩
    · rintro ⟨h, hab⟩
      obtain ⟨ha, hb⟩ := hab (by simp)
      exact ⟨⟨ha, hb, h⟩, fun _ => ⟨ha, hb⟩⟩

/-! ### The locks of a transaction -/

theorem releaseAll_eq (s : System) (r : TransactionRef) : s.releaseAll r =
    { s with
      transactions := s.transactions.modify r fun t => { t with lockSet := ∅ }
      locks := releasedLocks r.id (s.transactionAt r).lockedEntities.reverse s.locks
      graph := releasedGraph r.id (s.transactionAt r).lockedEntities.reverse s.graph } :=
  foldl_release _ _ _

theorem forget_eq (s : System) (r : TransactionRef) : s.forget r =
    (s.releaseAll r).setGraph ((s.releaseAll r).graph.remove r.id) := rfl

theorem retire_eq (s : System) (r : TransactionRef) : s.retire r =
    (s.forget r).modifyTransaction r fun t => { t with isRegistered := false } := rfl

theorem mem_locks_releaseAll : name ∈ (s.releaseAll r).locks ↔ name ∈ s.locks := by
  have hes := List.nodup_reverse.mpr (s.transactionAt r).nodup_lockedEntities
  simp only [releaseAll_eq, ← Std.ExtTreeMap.isSome_getElem?_iff_mem, getElem?_releasedLocks hes]
  split <;> simp

theorem lockAt_releaseAll (hl : name ∈ s.locks) : (s.releaseAll r).lockAt name =
    if name ∈ (s.transactionAt r).lockedNames then (s.lockAt name).release r.id
    else s.lockAt name := by
  have hes := List.nodup_reverse.mpr (s.transactionAt r).nodup_lockedEntities
  have hmem : name ∈ (s.transactionAt r).lockedEntities.reverse.map LockName.entity ↔
      name ∈ (s.transactionAt r).lockedNames := by
    rw [List.map_reverse, List.mem_reverse, Transaction.lockedNames]
  rw [releaseAll_eq]
  simp only [lockAt, getElem?_releasedLocks hes, hmem]
  split
  · rw [Std.ExtTreeMap.getElem?_eq_some_getElem hl]; rfl
  · rfl

/-- What becomes of the locks if those in the lock set have all been asked for. -/
theorem lockAt_releaseAll_of_kept
    (hk : ∀ e ∈ (s.transactionAt r).lockSet, LockName.entity e ∈ s.locks) :
    (s.releaseAll r).lockAt name = if name ∈ (s.transactionAt r).lockedNames
      then (s.lockAt name).release r.id else s.lockAt name := by
  by_cases hl : name ∈ s.locks
  · exact lockAt_releaseAll hl
  · have hn : name ∉ (s.transactionAt r).lockedNames := by
      intro hn
      obtain ⟨e, he, rfl⟩ := Transaction.mem_lockedNames.mp hn
      exact hl (hk e he)
    rw [if_neg hn, lockAt_of_not_mem hl, lockAt_of_not_mem (mt mem_locks_releaseAll.mp hl)]

theorem lockAt_retire (s : System) (r : TransactionRef) :
    (s.retire r).lockAt name = (s.releaseAll r).lockAt name := rfl

theorem waits_releaseAll : (s.releaseAll r).graph.Waits a b ↔
    s.graph.Waits a b ∧ ∀ e ∈ (s.transactionAt r).lockSet, a ≠ r.id ∧ b ≠ r.id := by
  rw [releaseAll_eq, waits_releasedGraph]
  refine and_congr_right fun _ => ?_
  constructor
  · intro h e he
    refine h fun hn => ?_
    have he : e ∈ (s.transactionAt r).lockedEntities.reverse :=
      List.mem_reverse.mpr (Transaction.mem_lockedEntities.mpr he)
    rw [hn] at he
    exact absurd he (by simp)
  · intro h hne
    obtain ⟨e, he⟩ := List.exists_mem_of_ne_nil _ hne
    exact h e (Transaction.mem_lockedEntities.mp (List.mem_reverse.mp he))

theorem waits_forget : (s.forget r).graph.Waits a b ↔ a ≠ r.id ∧ b ≠ r.id ∧ s.graph.Waits a b := by
  rw [forget_eq]
  apply WaitForGraph.waits_remove.trans
  rw [waits_releaseAll]
  tauto

theorem waits_retire : (s.retire r).graph.Waits a b ↔ a ≠ r.id ∧ b ≠ r.id ∧ s.graph.Waits a b :=
  waits_forget

theorem view_releaseAll {α : Type} (g : Transaction → α)
    (hg : ∀ t, g { t with lockSet := ∅ } = g t) :
    g ((s.releaseAll r).transactionAt q) = g (s.transactionAt q) := by
  rw [releaseAll_eq]
  exact view_modifyTransaction g hg

theorem transactionAt_releaseAll (hr : r ∈ s.transactions) : (s.releaseAll r).transactionAt q =
    if q = r then { s.transactionAt r with lockSet := ∅ } else s.transactionAt q := by
  rw [releaseAll_eq]
  exact transactionAt_modifyTransaction s r q _ hr

theorem transactionAt_retire (hr : r ∈ s.transactions) : (s.retire r).transactionAt q =
    if q = r then { s.transactionAt r with lockSet := ∅, isRegistered := false }
    else s.transactionAt q := by
  have hr' : r ∈ (s.forget r).transactions := by
    rw [forget_eq, releaseAll_eq]
    exact Std.ExtTreeMap.mem_modify.mpr hr
  rw [retire_eq, transactionAt_modifyTransaction _ r q _ hr']
  by_cases hq : q = r
  · rw [if_pos hq, if_pos hq]
    show { (s.releaseAll r).transactionAt r with isRegistered := false } = _
    rw [transactionAt_releaseAll hr, if_pos rfl]
  · rw [if_neg hq, if_neg hq]
    show (s.releaseAll r).transactionAt q = _
    rw [transactionAt_releaseAll hr, if_neg hq]

theorem view_forget {α : Type} (g : Transaction → α) (hg : ∀ t, g { t with lockSet := ∅ } = g t) :
    g ((s.forget r).transactionAt q) = g (s.transactionAt q) := view_releaseAll g hg

theorem view_retire {α : Type} (g : Transaction → α) (hg : ∀ t, g { t with lockSet := ∅ } = g t)
    (hr : ∀ t, g { t with isRegistered := false } = g t) :
    g ((s.retire r).transactionAt q) = g (s.transactionAt q) := by
  rw [retire_eq, view_modifyTransaction g hr, view_forget g hg]

/-! ### Notification -/

theorem alert_eq (s : System) (r : TransactionRef) : s.alert r = s ∨
    ∃ name, s.alert r = s.modifyLock name Lock.notify := by
  unfold alert
  split
  · exact .inr ⟨_, rfl⟩
  · exact .inl rfl

theorem transactionAt_alert (s : System) (r q : TransactionRef) :
    (s.alert r).transactionAt q = s.transactionAt q := by
  obtain h | ⟨name, h⟩ := alert_eq s r
  · rw [h]
  · rw [h]; rfl

theorem graph_alert (s : System) (r : TransactionRef) : (s.alert r).graph = s.graph := by
  obtain h | ⟨name, h⟩ := alert_eq s r
  · rw [h]
  · rw [h]; rfl

end System

end Locking
