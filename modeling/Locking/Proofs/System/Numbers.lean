import Locking.Proofs.System.Registry
import Locking.Proofs.System.Retained

/-! Several managers on one set of locks.  Locks know transactions by their numbers only, and every
manager counts its own, so transactions are told apart as long as no manager gives a number that
another transaction in use bears. -/

namespace Locking

namespace System

variable {s s' : System} {p p' : Stage} {e : Event} {r q : TransactionRef} {hs : History}

/-- A transaction is in use until it has ended, and as long as a call of it is in progress. -/
def InUse (s : System) (p : Stage) (r : TransactionRef) : Prop :=
  (r ∈ s.transactions ∧ (s.transactionAt r).state.isFinal = false) ∨
    (∃ access, p.user? = some (r, access)) ∨
      ∃ (c : CallId) (k : Call), s.calls[c]? = some k ∧ k.transaction = r

/-- The transaction that an event begins. -/
def newcomer? (s : System) : Event → Option TransactionRef
  | .begin m => s.begun[m]?.map fun n => ⟨m, n + 1⟩
  | _ => none

/-- Locks are asked for by `lock` and `lockAll` and released at the end of a transaction only, and
no transaction is begun with the number of another one that is in use. -/
def Unmistakable (s : System) (e : Event) : Prop :=
  e.handlesLocks = false ∧ ∀ r, s.newcomer? e = some r → ∀ q, s.InUse idle q → q.id ≠ r.id

instance (s : System) (e : Event) : Decidable (s.Unmistakable e) :=
  decidable_of_iff (e.handlesLocks = false ∧ ∀ r ∈ (s.newcomer? e).toList,
    (∀ entry ∈ s.transactions.toList, entry.2.state.isFinal = false → entry.1.id ≠ r.id) ∧
      ∀ entry ∈ s.calls.toList, entry.2.transaction.id ≠ r.id) <| by
    refine and_congr_right fun _ => ?_
    simp only [Option.mem_toList, Prod.forall, Std.ExtTreeMap.mem_toList_iff_getElem?_eq_some]
    refine forall_congr' fun r => forall_congr' fun _ => ?_
    constructor
    · rintro ⟨ht, hk⟩ q (⟨hmem, hf⟩ | ⟨access, hu⟩ | ⟨c, k, hc, rfl⟩)
      · refine ht q s.transactions[q] (Std.ExtTreeMap.getElem?_eq_some_getElem hmem) ?_
        rwa [transactionAt, Std.ExtTreeMap.getElem?_eq_some_getElem hmem] at hf
      · exact absurd hu (by simp [Stage.user?])
      · exact hk c k hc
    · intro h
      refine ⟨fun q t ht hf => h q (.inl ⟨?_, ?_⟩), fun c k hc => h _ (.inr (.inr ⟨c, k, hc, rfl⟩))⟩
      · exact Std.ExtTreeMap.isSome_getElem?_iff_mem.mp (by rw [ht]; rfl)
      · rwa [transactionAt, ht]

/-- Transactions in use are told apart by their numbers. -/
def Distinct (s : System) (p : Stage) : Prop :=
  ∀ r q, s.InUse p r → s.InUse p q → r.id = q.id → r = q

theorem inUse_of_user {access : Access} (h : p.user? = some (r, access)) : s.InUse p r :=
  .inr (.inl ⟨access, h⟩)

theorem inUse_of_active (hr : r ∈ s.transactions) (h : (s.transactionAt r).state = .active) :
    s.InUse p r :=
  .inl ⟨hr, by rw [h]; rfl⟩

/-- No transaction comes into use while a call goes on. -/
theorem Advance.inUse (hl : Ledger s p hs) (ha : Advance s p s' p') (h : s'.InUse p' q) :
    s.InUse p q := by
  rcases h with ⟨hmem, hf⟩ | hu | ⟨b, k, hk, rfl⟩
  · exact .inl ⟨ha.mem_transactions.mp hmem, (ha.turns hl q).unfinished hf⟩
  · obtain ⟨access, hu⟩ := hu
    cases ha.keeps with
    | nothing _ _ hp =>
      rcases hp with ⟨-, hp⟩ | ⟨-, hp⟩
      · exact inUse_of_user (hp.symm.trans hu)
      · exact absurd (hp.symm.trans hu) (by simp)
    | call _ _ _ _ _ hp => exact absurd (hp.2.symm.trans hu) (by simp)
  · cases ha.keeps with
    | nothing hc => exact .inr (.inr ⟨b, k, by rw [← hc, hk], rfl⟩)
    | call _ hu _ hc =>
      rw [hc, Std.ExtTreeMap.getElem?_insert] at hk
      split at hk
      · cases hk
        exact inUse_of_user hu
      · exact .inr (.inr ⟨b, k, hk, rfl⟩)

/-- Whoever uses a transaction after a start has found it in use. -/
theorem Start.inUse_of_user {access : Access} (he : e.handlesLocks = false)
    (hst : Start s e s' p) (hu : p.user? = some (q, access)) : s.InUse idle q := by
  have hactive : ∀ {r access}, s.admits r access = true → (s.transactionAt r).state = .active →
      s.InUse idle r := fun ha => inUse_of_active (admits_iff.mp ha).1
  have hroll : ∀ {r access}, s.admits r access = true →
      (s.transactionAt r).state.canRollBack = true → s.InUse idle r := by
    refine fun {r _} ha hs => .inl ⟨(admits_iff.mp ha).1, ?_⟩
    cases hstate : (s.transactionAt r).state with
    | committed | aborted => exact absurd hs (by simp [hstate, State.canRollBack])
    | _ => rfl
  have hcall : ∀ {c : CallId} {k : Call}, s.calls[c]? = some k → s.InUse idle k.transaction :=
    fun hk => .inr (.inr ⟨_, _, hk, rfl⟩)
  cases hst with
  | lock ha hs | lockAll ha hs | commit ha hs =>
    cases hu
    exact hactive ha hs
  | commitInterrupted ha _ hs | rollback ha hs | drop ha hs =>
    cases hu
    exact hroll ha hs
  | remove hs =>
    cases hu
    exact inUse_of_active (mem_of_registeredState? hs) (state_of_registeredState? hs)
  | wake hk | expire hk | prepared hk | notPrepared hk | committed hk | notCommitted hk
  | rolledBack hk =>
    cases hu
    exact hcall hk
  | acquire | upgrade => exact absurd he (by simp [Event.handlesLocks])
  | _ => exact absurd hu (by simp [Stage.user?])

/-- Whoever is in use after a start was in use before, or has just been begun. -/
theorem InOrder.inUse (ho : InOrder s idle) (he : e.handlesLocks = false)
    (hst : Start s e s' p) (h : s'.InUse p q) : s.InUse idle q ∨ s.newcomer? e = some q := by
  rcases h with ⟨hmem, hf⟩ | ⟨access, hu⟩ | ⟨c, k, hk, rfl⟩
  · have hstate := (State.Turns.begins (hst.begins ho q)).unfinished hf
    by_cases hbegin : ∃ m, e = .begin m
    · obtain ⟨m, rfl⟩ := hbegin
      cases hst with
      | quiet => exact .inl (.inl ⟨hmem, hstate⟩)
      | begin hn =>
        rcases Std.ExtTreeMap.mem_insert.mp hmem with hq | hq
        · obtain rfl := Std.LawfulEqOrd.eq_of_compare hq
          exact .inr (by simp [newcomer?, hn])
        · exact .inl (.inl ⟨hq, hstate⟩)
    · exact .inl (.inl ⟨hst.mem_transactions_of_mem (not_exists.mp hbegin) hmem, hstate⟩)
  · exact .inl (hst.inUse_of_user he hu)
  · refine .inl ?_
    cases ho.raises hst with
    | nothing hc | new hc => exact .inr (.inr ⟨c, k, by rw [← hc, hk], rfl⟩)
    | call _ hc =>
      rw [hc, Std.ExtTreeMap.getElem?_erase] at hk
      split at hk
      · exact absurd hk (by simp)
      · exact .inr (.inr ⟨c, k, hk, rfl⟩)
    | late hb hs =>
      rw [hs, calls_suspend] at hk
      split at hk
      · cases hk
        exact .inr (.inr ⟨_, _, hb, rfl⟩)
      · exact .inr (.inr ⟨c, k, hk, rfl⟩)

theorem Distinct.advance (h : Distinct s p) (hl : Ledger s p hs) (ha : Advance s p s' p') :
    Distinct s' p' :=
  fun r q hr hq => h r q (ha.inUse hl hr) (ha.inUse hl hq)

theorem Distinct.start (h : Distinct s idle) (ho : InOrder s idle) (he : s.Unmistakable e)
    (hst : Start s e s' p) : Distinct s' p := by
  intro r q hr hq hid
  rcases ho.inUse he.1 hst hr with hr' | hr' <;> rcases ho.inUse he.1 hst hq with hq' | hq'
  · exact h r q hr' hq' hid
  · exact absurd hid (he.2 q hq' r hr')
  · exact absurd hid.symm (he.2 r hr' q hq')
  · exact Option.some.inj (hr'.symm.trans hq')

end System

end Locking
