import Locking.Proofs.System.Recorded

/-! Transactions that have ended.  They are not listed by their manager any more, and their lock sets
are empty. -/

namespace Locking

/-- Whoever has ended is not listed any more and has nothing in its lock set. -/
def Transaction.Departed (t : Transaction) : Prop :=
  t.state.isFinal = true → t.isRegistered = false ∧ t.lockSet = ∅

namespace System

variable {s s' : System} {p p' : Stage} {e : Event} {r q : TransactionRef} {i : TransactionId}

/-! ### The list of a manager -/

theorem registeredState?_eq_some_iff {state : State} : s.registeredState? r = some state ↔
    r ∈ s.transactions ∧ (s.transactionAt r).isRegistered = true ∧
      (s.transactionAt r).state = state := by
  simp only [registeredState?, transactionAt]
  cases ht : s.transactions[r]? with
  | none =>
    have hn : r ∉ s.transactions := fun hr => by
      simpa [ht] using Std.ExtTreeMap.isSome_getElem?_iff_mem.mpr hr
    simp [hn]
  | some t =>
    have hr : r ∈ s.transactions := Std.ExtTreeMap.isSome_getElem?_iff_mem.mp (by rw [ht]; rfl)
    simp [hr]

theorem mem_registered {m : Nat} :
    i ∈ s.registered m ↔ ∃ state, s.registeredState? ⟨m, i⟩ = some state := by
  simp only [registered, List.mem_filterMap, Prod.exists,
    Std.ExtTreeMap.mem_toList_iff_getElem?_eq_some, registeredState?]
  constructor
  · rintro ⟨q, t, ht, hq⟩
    split at hq
    · next hm =>
      obtain ⟨rfl, hlisted⟩ := hm
      obtain rfl := Option.some.inj hq
      exact ⟨t.state, by simp [ht, hlisted]⟩
    · exact absurd hq (by simp)
  · rintro ⟨state, hstate⟩
    split at hstate
    · next t ht =>
      split at hstate
      · next hlisted => exact ⟨_, t, ht, by simp [hlisted]⟩
      · exact absurd hstate (by simp)
    · exact absurd hstate (by simp)

theorem departed_modifyTransaction {f : Transaction → Transaction}
    (hf : ∀ t : Transaction, t.Departed → (f t).Departed) (h : (s.transactionAt q).Departed) :
    ((s.modifyTransaction r f).transactionAt q).Departed :=
  rel_modifyTransaction (R := fun t t' => t.Departed → t'.Departed) (fun _ => id) hf h

theorem departed_retire (hr : r ∈ s.transactions) (state : State)
    (h : (s.transactionAt q).Departed) :
    (((s.setState r state).retire r).transactionAt q).Departed := by
  have hr' : r ∈ (s.setState r state).transactions := mem_transactions_modifyTransaction.mpr hr
  rw [transactionAt_retire hr']
  split
  · exact fun _ => ⟨rfl, rfl⟩
  · next hq => rwa [setState, transactionAt_modifyTransaction_ne hq]

theorem Advance.departed (ho : InOrder s p) (ha : Advance s p s' p')
    (h : (s.transactionAt q).Departed) : (s'.transactionAt q).Departed := by
  cases ha with
  | ask | grant | fail => exact departed_modifyTransaction (fun _ => id) h
  | @keep c r d e rest w hs =>
    show ((s.modifyTransaction r _).transactionAt q).Departed
    rw [transactionAt_modifyTransaction s r q _ (ho.user r .shared rfl)]
    split
    · exact fun hf => absurd hf (by simp [hs, State.isFinal])
    · exact h
  | abort | beginPhased | beginAtOnce =>
    exact departed_modifyTransaction (fun _ _ hf => absurd hf (by simp [State.isFinal])) h
  | undone | committed => exact departed_retire (ho.user _ _ rfl) _ h
  | removed =>
    rw [transactionAt_alert]
    exact departed_retire (ho.user _ _ rfl) _ h
  | _ => exact h

theorem Start.departed (ho : InOrder s idle) (hst : Start s e s' p)
    (h : (s.transactionAt q).Departed) : (s'.transactionAt q).Departed := by
  have hbegins : ∀ {r : TransactionRef} {state : State} {t : System}, state.isFinal = false →
      (t.transactionAt q).Departed → ((t.setState r state).transactionAt q).Departed :=
    fun hs => departed_modifyTransaction fun _ _ hf => absurd hf (by simp [hs])
  cases hst with
  | begin hn =>
    rw [transactionAt_begin ho hn]
    exact h
  | acquire | upgrade | register | dropEnded => exact departed_modifyTransaction (fun _ => id) h
  | commitInterrupted | rollback | notPrepared | notCommitted => exact hbegins rfl h
  | drop => exact hbegins rfl (departed_modifyTransaction (fun _ => id) h)
  | remove =>
    exact departed_modifyTransaction (fun _ _ hf => absurd hf (by simp [State.isFinal])) h
  | interrupt | managerInterrupt =>
    rw [System.interrupt, transactionAt_alert]
    exact departed_modifyTransaction (fun _ => id) h
  | unlockAll =>
    rw [releaseAll_eq]
    exact departed_modifyTransaction (fun _ ht hf => ⟨(ht hf).1, rfl⟩) h
  | forget =>
    rw [forget_eq, releaseAll_eq]
    exact departed_modifyTransaction (fun _ ht hf => ⟨(ht hf).1, rfl⟩) h
  | _ => exact h

/-- In every run, whoever has ended has departed. -/
theorem departed_invariant : Invariant (fun _ _ => True) fun s p =>
    InOrder s p ∧ ∀ q, (s.transactionAt q).Departed where
  inOrder h := h.1
  rest h := ⟨h.1.rest, h.2⟩
  start _ h hst := ⟨h.1.start hst, fun q => hst.departed h.1 (h.2 q)⟩
  advance h ha := ⟨h.1.advance ha, fun q => ha.departed h.1 (h.2 q)⟩

theorem registeredState?_eq_none (h : (s.transactionAt r).Departed)
    (hf : (s.transactionAt r).state.isFinal = true) : s.registeredState? r = none := by
  cases hs : s.registeredState? r with
  | none => rfl
  | some state =>
    have hlisted := (registeredState?_eq_some_iff.mp hs).2.1
    rw [(h hf).1] at hlisted
    exact absurd hlisted (by simp)

end System

end Locking
