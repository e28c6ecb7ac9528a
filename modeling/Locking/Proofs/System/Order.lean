import Locking.Proofs.System.Course

/-! The calls in progress, and the one that goes on.  Calls are numbered, they use transactions that
were begun, and no two of them use a transaction in ways that exclude each other. -/

namespace Locking

theorem Access.permits_comm (a b : Access) : a.permits b = b.permits a := by
  cases a <;> cases b <;> rfl

/-- Whether a call that stands at this point may use its transaction so. -/
def Point.suits : Point → Access → Prop
  | waiting .., access => access = .shared
  | preparing .., access | committing .., access => access = .exclusive
  | rollingBack .., _ => True

namespace System

/-- Between two events no call goes on. -/
abbrev idle : Stage := .concluded .refused

/-- What holds of the calls in progress, and of the one that goes on. -/
structure InOrder (s : System) (p : Stage) : Prop where
  fresh : ∀ (c : CallId) (k : Call), s.calls[c]? = some k → c < s.nextCall
  suited : ∀ (c : CallId) (k : Call), s.calls[c]? = some k → k.point.suits k.access
  known : ∀ (c : CallId) (k : Call), s.calls[c]? = some k → k.transaction ∈ s.transactions
  apart : ∀ (b c : CallId) (j k : Call), s.calls[b]? = some j → s.calls[c]? = some k → b ≠ c →
    j.transaction = k.transaction → j.access.permits k.access = true
  numbered : ∀ r ∈ s.transactions, ∃ n, s.begun[r.manager]? = some n ∧ r.id ≤ n
  going : ∀ c, p.call? = some c → s.calls[c]? = none ∧ c ≤ s.nextCall
  user : ∀ r access, p.user? = some (r, access) → r ∈ s.transactions
  aside : ∀ r access, p.user? = some (r, access) → ∀ (c : CallId) (k : Call),
    s.calls[c]? = some k → k.transaction = r → k.access.permits access = true

variable {s s' : System} {p p' : Stage} {e : Event} {r q : TransactionRef} {c : CallId}
  {access : Access}

/-! ### What never changes -/

/-- What a system was made with. -/
def settings (s : System) : Granularity × List Config × Option Duration :=
  (s.granularity, s.configs, s.lockWaitTimeout)

theorem settings_alert (s : System) (r : TransactionRef) : (s.alert r).settings = s.settings := by
  obtain h | ⟨name, h⟩ := alert_eq s r
  · rw [h]
  · rw [h]; rfl

theorem settings_retire (s : System) (r : TransactionRef) : (s.retire r).settings = s.settings := by
  simp only [retire_eq, forget_eq, releaseAll_eq]
  rfl

theorem Advance.settings (h : Advance s p s' p') : s'.settings = s.settings := by
  cases h with
  | undone | committed => exact settings_retire _ _
  | removed => exact (settings_alert _ _).trans (settings_retire _ _)
  | _ => rfl

theorem Start.settings (h : Start s e s' p) : s'.settings = s.settings := by
  cases h with
  | interrupt | managerInterrupt => exact settings_alert _ _
  | unlockAll => rw [releaseAll_eq]; rfl
  | forget => rw [forget_eq, releaseAll_eq]; rfl
  | _ => rfl

/-! ### What starts and advances do to the calls -/

/-- What an advance may do to the calls in progress: nothing, or it keeps the one that goes on. -/
inductive Keeps (s : System) (p : Stage) (s' : System) (p' : Stage) : Prop
  | nothing (hc : s'.calls = s.calls) (hn : s'.nextCall = s.nextCall)
      (hp : p'.call? = p.call? ∧ p'.user? = p.user? ∨ p'.call? = none ∧ p'.user? = none)
  | call {c : CallId} {r : TransactionRef} {access : Access} {point : Point}
      (hc : p.call? = some c) (hu : p.user? = some (r, access))
      (hs : point.suits access) (hk : s'.calls = s.calls.insert c ⟨r, access, point⟩)
      (hn : s'.nextCall = max s.nextCall (c + 1)) (hp : p'.call? = none ∧ p'.user? = none)

theorem calls_alert (s : System) (r : TransactionRef) :
    (s.alert r).calls = s.calls ∧ (s.alert r).nextCall = s.nextCall := by
  rcases alert_eq s r with h | ⟨name, h⟩ <;> rw [h] <;> exact ⟨rfl, rfl⟩

theorem calls_retire (s : System) (r : TransactionRef) :
    (s.retire r).calls = s.calls ∧ (s.retire r).nextCall = s.nextCall := by
  simp only [retire_eq, forget_eq, releaseAll_eq]
  exact ⟨rfl, rfl⟩

theorem Advance.keeps (h : Advance s p s' p') : Keeps s p s' p' := by
  cases h with
  | sleep | prepare | commit =>
    refine .call rfl rfl ?_ rfl rfl ⟨rfl, rfl⟩
    rfl
  | undo =>
    refine .call rfl rfl ?_ rfl rfl ⟨rfl, rfl⟩
    trivial
  | done | grantedSingle | failedSingle | abortEnded => exact .nothing rfl rfl (.inr ⟨rfl, rfl⟩)
  | undone | committed =>
    obtain ⟨hc, hn⟩ := calls_retire (s.setState _ _) _
    exact .nothing hc hn (.inr ⟨rfl, rfl⟩)
  | @removed c r _ =>
    obtain ⟨hc, hn⟩ := calls_retire (s.setState r .aborted) r
    obtain ⟨hc', hn'⟩ := calls_alert
      (((s.setState r .aborted).retire r).setStatistics s.statistics.countRollback) r
    exact .nothing (hc'.trans hc) (hn'.trans hn) (.inr ⟨rfl, rfl⟩)
  | _ => exact .nothing rfl rfl (.inl ⟨rfl, rfl⟩)

/-- A call that is asleep after an advance was so before, or has just fallen asleep. -/
theorem Advance.calls_of_asleep {k : Call} (h : Advance s p s' p') (hk : s'.calls[c]? = some k)
    (hp : k.point.isAsleep = true) : s.calls[c]? = some k ∨ ∃ r name kind d goal w,
      p = .looking c r name kind d goal w ∧ k = ⟨r, .shared, .waiting name d goal⟩ ∧
        p' = .concluded (.asleep c) := by
  cases h with
  | sleep =>
    rw [calls_suspend] at hk
    split at hk
    · next hc =>
      subst hc
      exact .inr ⟨_, _, _, _, _, _, rfl, (Option.some.inj hk).symm, rfl⟩
    · exact .inl hk
  | undo | prepare | commit =>
    rw [calls_suspend] at hk
    split at hk
    · obtain rfl := Option.some.inj hk
      exact absurd hp (by simp [Point.isAsleep])
    · exact .inl hk
  | @undone _ r | @committed _ r =>
    exact .inl ((congrArg (·[c]?) (calls_retire (s.setState r _) r).1).symm.trans hk)
  | @removed _ r =>
    refine .inl ((congrArg (·[c]?) ?_).symm.trans hk)
    exact (calls_alert _ _).1.trans (calls_retire (s.setState r .aborted) r).1
  | _ => exact .inl hk

theorem mem_transactions_alert (s : System) (r : TransactionRef) :
    q ∈ (s.alert r).transactions ↔ q ∈ s.transactions := by
  obtain h | ⟨name, h⟩ := alert_eq s r
  · rw [h]
  · rw [h]; exact Iff.rfl

theorem mem_transactions_forget (s : System) (r : TransactionRef) :
    q ∈ (s.forget r).transactions ↔ q ∈ s.transactions := by
  simp only [forget_eq, releaseAll_eq]
  exact Std.ExtTreeMap.mem_modify

theorem mem_transactions_retire (s : System) (r : TransactionRef) :
    q ∈ (s.retire r).transactions ↔ q ∈ s.transactions := by
  rw [retire_eq, mem_transactions_modifyTransaction, mem_transactions_forget]

theorem begun_retire (s : System) (r : TransactionRef) : (s.retire r).begun = s.begun := by
  simp only [retire_eq, forget_eq, releaseAll_eq]
  rfl

theorem begun_alert (s : System) (r : TransactionRef) : (s.alert r).begun = s.begun := by
  obtain h | ⟨name, h⟩ := alert_eq s r
  · rw [h]
  · rw [h]; rfl

theorem Advance.mem_transactions (h : Advance s p s' p') :
    q ∈ s'.transactions ↔ q ∈ s.transactions := by
  cases h with
  | undone | committed =>
    exact (mem_transactions_retire _ _).trans mem_transactions_modifyTransaction
  | removed =>
    exact (mem_transactions_alert _ _).trans
      ((mem_transactions_retire _ _).trans mem_transactions_modifyTransaction)
  | ask | grant | fail | keep | abort | beginPhased | beginAtOnce =>
    exact mem_transactions_modifyTransaction
  | _ => exact Iff.rfl

theorem Advance.begun (h : Advance s p s' p') : s'.begun = s.begun := by
  cases h with
  | undone | committed => exact begun_retire _ _
  | removed => exact (begun_alert _ _).trans (begun_retire _ _)
  | _ => rfl

theorem InOrder.advance (h : InOrder s p) (ha : Advance s p s' p') : InOrder s' p' := by
  have hmem : ∀ q, q ∈ s'.transactions ↔ q ∈ s.transactions := fun q => ha.mem_transactions
  have hnumbered : ∀ q ∈ s'.transactions, ∃ n, s'.begun[q.manager]? = some n ∧ q.id ≤ n :=
    fun q hq => ha.begun ▸ h.numbered q ((hmem q).mp hq)
  cases ha.keeps with
  | nothing hc hn hp =>
    refine ⟨?_, ?_, ?_, ?_, hnumbered, ?_, ?_, ?_⟩
    · rw [hc, hn]; exact h.fresh
    · rw [hc]; exact h.suited
    · rw [hc]; exact fun c k hk => (hmem _).mpr (h.known c k hk)
    · rw [hc]; exact h.apart
    · rw [hc, hn]
      rcases hp with ⟨hp, -⟩ | ⟨hp, -⟩ <;> rw [hp]
      · exact h.going
      · simp
    · intro r access hu
      rcases hp with ⟨-, hp⟩ | ⟨-, hp⟩ <;> rw [hp] at hu
      · exact (hmem r).mpr (h.user r access hu)
      · exact absurd hu (by simp)
    · intro r access hu
      rw [hc]
      rcases hp with ⟨-, hp⟩ | ⟨-, hp⟩ <;> rw [hp] at hu
      · exact h.aside r access hu
      · exact absurd hu (by simp)
  | @call c r access point hc hu hs hk hn hp =>
    obtain ⟨hnone, hle⟩ := h.going c hc
    have hget : ∀ b : CallId, s'.calls[b]? =
        if b = c then some ⟨r, access, point⟩ else s.calls[b]? := by
      intro b
      simp only [hk, Std.ExtTreeMap.getElem?_insert, Nat.compare_eq_eq, eq_comm (a := b)]
    have hcase : ∀ (b : CallId) (k : Call), s'.calls[b]? = some k →
        b = c ∧ k = ⟨r, access, point⟩ ∨ b ≠ c ∧ s.calls[b]? = some k := by
      intro b k hb
      rw [hget] at hb
      split at hb
      · next hbc => exact .inl ⟨hbc, (Option.some.inj hb).symm⟩
      · next hbc => exact .inr ⟨hbc, hb⟩
    refine ⟨?_, ?_, ?_, ?_, hnumbered, by simp [hp.1], by simp [hp.2], by simp [hp.2]⟩
    · intro b k hb
      rw [hn]
      rcases hcase b k hb with ⟨rfl, -⟩ | ⟨-, hb⟩
      · exact Nat.lt_of_lt_of_le (Nat.lt_succ_self b) (Nat.le_max_right _ _)
      · exact Nat.lt_of_lt_of_le (h.fresh b k hb) (Nat.le_max_left _ _)
    · intro b k hb
      rcases hcase b k hb with ⟨-, rfl⟩ | ⟨-, hb⟩
      · exact hs
      · exact h.suited b k hb
    · intro b k hb
      rcases hcase b k hb with ⟨-, rfl⟩ | ⟨-, hb⟩
      · exact (hmem r).mpr (h.user r access hu)
      · exact (hmem _).mpr (h.known b k hb)
    · intro a b j k ha hb hab ht
      rcases hcase a j ha with ⟨rfl, rfl⟩ | ⟨hac, ha⟩ <;>
        rcases hcase b k hb with ⟨rfl, rfl⟩ | ⟨hbc, hb⟩
      · exact absurd rfl hab
      · rw [Access.permits_comm]
        exact h.aside r access hu b k hb ht.symm
      · exact h.aside r access hu a j ha ht
      · exact h.apart a b j k ha hb hab ht

/-- What a start may do to the calls in progress: nothing, or it lets a new call or one of them go
on, or it lets the deadline of one of them pass. -/
inductive Raises (s s' : System) (p : Stage) : Prop
  | nothing (hc : s'.calls = s.calls) (hn : s'.nextCall = s.nextCall)
      (hp : p.call? = none ∧ p.user? = none)
  | new {r : TransactionRef} {access : Access} (hc : s'.calls = s.calls)
      (hn : s'.nextCall = s.nextCall)
      (hp : p.call? = some s.nextCall) (hu : p.user? = some (r, access))
      (hr : r ∈ s.transactions) (ha : ∀ (c : CallId) (k : Call), s.calls[c]? = some k →
        k.transaction = r → k.access.permits access = true)
  | call {c : CallId} {k : Call} (hk : s.calls[c]? = some k) (hc : s'.calls = s.calls.erase c)
      (hn : s'.nextCall = s.nextCall)
      (hp : p.call? = some c ∧ p.user? = some (k.transaction, k.access) ∨
        p.call? = none ∧ p.user? = none)
  | late {c : CallId} {r : TransactionRef} {name : LockName} {d : Deadline} {goal : Goal}
      (hk : s.calls[c]? = some ⟨r, .shared, .waiting name d goal⟩)
      (hs : s' = s.suspend c ⟨r, .shared, .waiting name .passed goal⟩)
      (hp : p.call? = none ∧ p.user? = none)

theorem mem_of_registeredState? {state : State} (h : s.registeredState? r = some state) :
    r ∈ s.transactions := by
  by_contra hn
  simp [registeredState?, Std.ExtTreeMap.getElem?_eq_none hn] at h

theorem state_of_registeredState? {state : State} (h : s.registeredState? r = some state) :
    (s.transactionAt r).state = state := by
  simp only [registeredState?] at h
  split at h
  · next t ht =>
    rw [transactionAt, ht]
    split at h
    · exact Option.some.inj h
    · exact absurd h (by simp)
  · exact absurd h (by simp)

theorem calls_releaseAll (s : System) (r : TransactionRef) :
    (s.releaseAll r).calls = s.calls ∧ (s.releaseAll r).nextCall = s.nextCall := by
  rw [releaseAll_eq]
  exact ⟨rfl, rfl⟩

theorem InOrder.raises (h : InOrder s idle) (hs : Start s e s' p) : Raises s s' p := by
  have hnew : ∀ {r access}, s.admits r access = true → r ∈ s.transactions ∧
      ∀ (c : CallId) (k : Call), s.calls[c]? = some k → k.transaction = r →
        k.access.permits access = true :=
    fun ha => ⟨(admits_iff.mp ha).1, (admits_iff.mp ha).2.2⟩
  cases hs with
  | lock ha | lockAll ha | acquire ha | upgrade ha | commit ha | commitInterrupted ha | rollback ha
  | drop ha =>
    exact .new rfl rfl rfl rfl (hnew ha).1 (hnew ha).2
  | remove hr =>
    exact .new rfl rfl rfl rfl (mem_of_registeredState? hr) fun c k _ _ => by
      cases k.access <;> rfl
  | wake hk | expire hk | rolledBack hk => exact .call hk rfl rfl (.inl ⟨rfl, rfl⟩)
  | @prepared c r access store rest answer hk | @committed c r access store rest answer hk =>
    obtain rfl : access = .exclusive := h.suited c _ hk
    exact .call hk rfl rfl (.inl ⟨rfl, rfl⟩)
  | notPrepared hk | notCommitted hk => exact .call hk rfl rfl (.inl ⟨rfl, rfl⟩)
  | notPreparedEnded hk | notCommittedEnded hk => exact .call hk rfl rfl (.inr ⟨rfl, rfl⟩)
  | expireIdle hk => exact .late hk rfl ⟨rfl, rfl⟩
  | @interrupt r | @managerInterrupt r =>
    obtain ⟨hc, hn⟩ :=
      calls_alert (s.modifyTransaction r fun t => { t with isInterrupted := true }) r
    exact .nothing hc hn ⟨rfl, rfl⟩
  | @unlockAll r | @forget r =>
    obtain ⟨hc, hn⟩ := calls_releaseAll s r
    exact .nothing hc hn ⟨rfl, rfl⟩
  | _ => exact .nothing rfl rfl ⟨rfl, rfl⟩

/-- A call that is asleep after a start was so before, though maybe with another deadline. -/
theorem InOrder.calls_of_asleep {name : LockName} {d : Deadline} {goal : Goal} (h : InOrder s idle)
    (hs : Start s e s' p) (hk : s'.calls[c]? = some ⟨r, access, .waiting name d goal⟩) :
    ∃ d', s.calls[c]? = some ⟨r, access, .waiting name d' goal⟩ := by
  cases h.raises hs with
  | nothing hc | new hc => exact ⟨d, by rw [← hc, hk]⟩
  | call _ hc =>
    rw [hc, Std.ExtTreeMap.getElem?_erase] at hk
    split at hk
    · exact absurd hk (by simp)
    · exact ⟨d, hk⟩
  | late hb hs =>
    rw [hs, calls_suspend] at hk
    split at hk
    · next hc =>
      subst hc
      cases hk
      exact ⟨_, hb⟩
    · exact ⟨d, hk⟩

theorem Start.mem_transactions (hs : Start s e s' p) (hq : q ∈ s.transactions) :
    q ∈ s'.transactions := by
  cases hs with
  | begin => exact Std.ExtTreeMap.mem_insert.mpr (.inr hq)
  | acquire | upgrade | register | commitInterrupted | rollback | dropEnded | remove | notPrepared
  | notCommitted =>
    exact mem_transactions_modifyTransaction.mpr hq
  | drop =>
    exact mem_transactions_modifyTransaction.mpr (mem_transactions_modifyTransaction.mpr hq)
  | interrupt | managerInterrupt =>
    exact (mem_transactions_alert _ _).mpr (mem_transactions_modifyTransaction.mpr hq)
  | unlockAll => rw [releaseAll_eq]; exact Std.ExtTreeMap.mem_modify.mpr hq
  | forget => exact (mem_transactions_forget _ _).mpr hq
  | _ => exact hq

/-- No transaction comes to be known but by being begun. -/
theorem Start.mem_transactions_of_mem (hs : Start s e s' p) (he : ∀ m, e ≠ .begin m)
    (hq : q ∈ s'.transactions) : q ∈ s.transactions := by
  cases hs with
  | begin => exact absurd rfl (he _)
  | acquire | upgrade | register | commitInterrupted | rollback | dropEnded | remove | notPrepared
  | notCommitted =>
    exact mem_transactions_modifyTransaction.mp hq
  | drop =>
    exact mem_transactions_modifyTransaction.mp (mem_transactions_modifyTransaction.mp hq)
  | interrupt | managerInterrupt =>
    exact mem_transactions_modifyTransaction.mp ((mem_transactions_alert _ _).mp hq)
  | unlockAll => rw [releaseAll_eq] at hq; exact Std.ExtTreeMap.mem_modify.mp hq
  | forget => exact (mem_transactions_forget _ _).mp hq
  | _ => exact hq

theorem Start.begun (hs : Start s e s' p) (he : ∀ m, e ≠ .begin m) : s'.begun = s.begun := by
  cases hs with
  | begin => exact absurd rfl (he _)
  | interrupt | managerInterrupt => exact begun_alert _ _
  | unlockAll => rw [releaseAll_eq]
  | forget => rw [forget_eq, releaseAll_eq]; rfl
  | _ => rfl

theorem InOrder.numbered_start (h : InOrder s idle) (hs : Start s e s' p) :
    ∀ q ∈ s'.transactions, ∃ n, s'.begun[q.manager]? = some n ∧ q.id ≤ n := by
  intro q hq
  by_cases he : ∃ m, e = .begin m
  · obtain ⟨m, rfl⟩ := he
    cases hs with
    | quiet => exact h.numbered q hq
    | @begin m n hn =>
      have hm : m < s.begun.length := (List.getElem?_eq_some_iff.mp hn).1
      rcases Std.ExtTreeMap.mem_insert.mp hq with hq | hq
      · obtain rfl := Std.LawfulEqOrd.eq_of_compare hq
        exact ⟨n + 1, by simp [hm], Nat.le_refl _⟩
      · obtain ⟨k, hk, hle⟩ := h.numbered q hq
        by_cases hqm : q.manager = m
        · refine ⟨n + 1, by simp [hqm, hm], ?_⟩
          rw [hqm, hn] at hk
          obtain rfl := Option.some.inj hk
          exact Nat.le_succ_of_le hle
        · exact ⟨k, by rw [List.getElem?_set_ne (Ne.symm hqm)]; exact hk, hle⟩
  · have he : ∀ m, e ≠ .begin m := not_exists.mp he
    rw [hs.begun he]
    exact h.numbered q (hs.mem_transactions_of_mem he hq)

/-- The number that a manager gives next is not in use. -/
theorem InOrder.not_mem_next {m n : Nat} (h : InOrder s idle) (hn : s.begun[m]? = some n) :
    ⟨m, n + 1⟩ ∉ s.transactions := by
  intro hmem
  obtain ⟨k, hk, hle⟩ := h.numbered _ hmem
  rw [hn] at hk
  obtain rfl := Option.some.inj hk
  exact absurd hle (Nat.not_succ_le_self n)

theorem transactionAt_begin {m n : Nat} (h : InOrder s idle) (hn : s.begun[m]? = some n)
    (begun : List Nat) (q : TransactionRef) :
    ({ s with begun, transactions := s.transactions.insert ⟨m, n + 1⟩ {} } :
      System).transactionAt q = s.transactionAt q := by
  simp only [transactionAt, Std.ExtTreeMap.getElem?_insert, Std.LawfulEqOrd.compare_eq_iff_eq]
  split
  · next hq =>
    rw [← hq, Std.ExtTreeMap.getElem?_eq_none (h.not_mem_next hn)]
    rfl
  · rfl

theorem InOrder.start (h : InOrder s idle) (hs : Start s e s' p) : InOrder s' p := by
  have hmem : ∀ q ∈ s.transactions, q ∈ s'.transactions := fun q hq => hs.mem_transactions hq
  have hnumbered := h.numbered_start hs
  cases h.raises hs with
  | nothing hc hn hp =>
    refine ⟨?_, ?_, ?_, ?_, hnumbered, by simp [hp.1], by simp [hp.2], by simp [hp.2]⟩
    · rw [hc, hn]; exact h.fresh
    · rw [hc]; exact h.suited
    · rw [hc]; exact fun c k hk => hmem _ (h.known c k hk)
    · rw [hc]; exact h.apart
  | @new r access hc hn hp hu hr ha =>
    refine ⟨?_, ?_, ?_, ?_, hnumbered, ?_, ?_, ?_⟩
    · rw [hc, hn]; exact h.fresh
    · rw [hc]; exact h.suited
    · rw [hc]; exact fun c k hk => hmem _ (h.known c k hk)
    · rw [hc]; exact h.apart
    · intro c hcall
      obtain rfl : s.nextCall = c := Option.some.inj (hp.symm.trans hcall)
      rw [hc, hn]
      refine ⟨?_, Nat.le_refl _⟩
      cases hk : s.calls[s.nextCall]? with
      | none => rfl
      | some k => exact absurd (h.fresh _ k hk) (Nat.lt_irrefl _)
    · intro q a hq
      obtain ⟨rfl, rfl⟩ := Prod.mk.inj (Option.some.inj (hu.symm.trans hq))
      exact hmem _ hr
    · intro q a hq
      obtain ⟨rfl, rfl⟩ := Prod.mk.inj (Option.some.inj (hu.symm.trans hq))
      rw [hc]
      exact ha
  | @call c k hk hc hn hp =>
    have hcase : ∀ (b : CallId) (j : Call), s'.calls[b]? = some j →
        b ≠ c ∧ s.calls[b]? = some j := by
      intro b j hb
      simp only [hc, Std.ExtTreeMap.getElem?_erase, Nat.compare_eq_eq, eq_comm (a := c)] at hb
      split at hb
      · exact absurd hb (by simp)
      · next hbc => exact ⟨hbc, hb⟩
    refine ⟨?_, ?_, ?_, ?_, hnumbered, ?_, ?_, ?_⟩
    · rw [hn]; exact fun b j hb => h.fresh b j (hcase b j hb).2
    · exact fun b j hb => h.suited b j (hcase b j hb).2
    · exact fun b j hb => hmem _ (h.known b j (hcase b j hb).2)
    · exact fun a b i j ha hb => h.apart a b i j (hcase a i ha).2 (hcase b j hb).2
    · intro b hb
      rcases hp with ⟨hp, -⟩ | ⟨hp, -⟩
      · obtain rfl : c = b := Option.some.inj (hp.symm.trans hb)
        refine ⟨?_, hn ▸ Nat.le_of_lt (h.fresh c k hk)⟩
        simp [hc]
      · exact absurd (hp.symm.trans hb) (by simp)
    · intro r a hu
      rcases hp with ⟨-, hp⟩ | ⟨-, hp⟩
      · obtain ⟨rfl, rfl⟩ := Prod.mk.inj (Option.some.inj (hp.symm.trans hu))
        exact hmem _ (h.known c k hk)
      · exact absurd (hp.symm.trans hu) (by simp)
    · intro r a hu b j hb ht
      rcases hp with ⟨-, hp⟩ | ⟨-, hp⟩
      · obtain ⟨rfl, rfl⟩ := Prod.mk.inj (Option.some.inj (hp.symm.trans hu))
        exact h.apart b c j k (hcase b j hb).2 hk (hcase b j hb).1 ht
      · exact absurd (hp.symm.trans hu) (by simp)
  | @late c r name d goal hk hs' hp =>
    -- The call is replaced by one that differs from it in its deadline alone.
    have hcase : ∀ (b : CallId) (j : Call), s'.calls[b]? = some j → ∃ i, s.calls[b]? = some i ∧
        i.transaction = j.transaction ∧ i.access = j.access ∧
          (i.point.suits i.access → j.point.suits j.access) := by
      intro b j hb
      rw [hs', calls_suspend] at hb
      split at hb
      · next hbc =>
        subst hbc
        rw [← Option.some.inj hb]
        exact ⟨_, hk, rfl, rfl, fun hs => hs⟩
      · exact ⟨j, hb, rfl, rfl, fun hs => hs⟩
    refine ⟨?_, ?_, ?_, ?_, hnumbered, by simp [hp.1], by simp [hp.2], by simp [hp.2]⟩
    · intro b j hb
      obtain ⟨i, hi, -⟩ := hcase b j hb
      rw [hs']
      exact Nat.lt_of_lt_of_le (h.fresh b i hi) (Nat.le_max_left _ _)
    · intro b j hb
      obtain ⟨i, hi, -, -, hsuits⟩ := hcase b j hb
      exact hsuits (h.suited b i hi)
    · intro b j hb
      obtain ⟨i, hi, ht, -⟩ := hcase b j hb
      exact hmem _ (ht ▸ h.known b i hi)
    · intro a b i j ha hb hab ht
      obtain ⟨i', hi, hti, hai, -⟩ := hcase a i ha
      obtain ⟨j', hj, htj, haj, -⟩ := hcase b j hb
      rw [← hai, ← haj]
      exact h.apart a b i' j' hi hj hab (by rw [hti, htj, ht])

theorem InOrder.rest {response : Response} (h : InOrder s (.concluded response)) : InOrder s idle :=
  ⟨h.fresh, h.suited, h.known, h.apart, h.numbered, h.going, h.user, h.aside⟩

theorem InOrder.tidy (h : InOrder s p) : s.Tidy where
  fresh := h.fresh
  shared c k name d goal hk hp := by
    have := h.suited c k hk
    rw [hp] at this
    exact this

theorem InOrder.new (g : Granularity) (configs : List Config) (lockConfig : Config) :
    InOrder (System.new g configs lockConfig) idle := by
  refine ⟨?_, ?_, ?_, ?_, ?_, ?_, ?_, ?_⟩ <;> simp [System.new, Stage.call?, Stage.user?]

/-! ### What a call has found -/

/-- What the call that goes on has found is still so.  A call that goes on alone makes nothing of
what it has found untrue before it acts on it. -/
def Current (s : System) (p : Stage) : Prop :=
  ∀ c r, p = .deciding c r → (s.transactionAt r).state = .active

theorem current_concluded {response : Response} : s.Current (.concluded response) := nofun

theorem Start.current (hs : Start s e s' p) : s'.Current p := by
  rintro c r rfl
  cases hs with
  | commit _ hactive => exact hactive

theorem Advance.current (ha : Advance s p s' p') : s'.Current p' := by
  rintro c r rfl
  cases ha

/-! ### Runs -/

/-- What every advance preserves holds when the call has come to its end. -/
theorem Advances.preserve {P : System → Stage → Prop} {result : System × Response}
    (ha : Advances s p result) (hadvance : ∀ {s p s' p'}, P s p → Advance s p s' p' → P s' p')
    (hp : P s p) : P result.1 (.concluded result.2) := by
  induction ha with
  | concluded => exact hp
  | step ha _ ih => exact ih (hadvance hp ha)

/-- The system after a list of events. -/
def run (s : System) (events : List Event) : System := events.foldl (fun s e => (s.step e).1) s

theorem run_append (s : System) (events later : List Event) :
    s.run (events ++ later) = (s.run events).run later := List.foldl_append ..

/-- Whether a rule allows each of the events in the state in which it happens. -/
def Obeys (rule : System → Event → Prop) : System → List Event → Prop
  | _, [] => True
  | s, e :: events => rule s e ∧ Obeys rule (s.step e).1 events

instance Obeys.decidable {rule : System → Event → Prop} [∀ s e, Decidable (rule s e)] (s : System) :
    (events : List Event) → Decidable (Obeys rule s events)
  | [] => .isTrue trivial
  | e :: events =>
    have : Decidable (Obeys rule (s.step e).1 events) := Obeys.decidable _ events
    inferInstanceAs (Decidable (rule s e ∧ Obeys rule (s.step e).1 events))

theorem obeys_append {rule : System → Event → Prop} {events later : List Event} :
    Obeys rule s (events ++ later) ↔ Obeys rule s events ∧ Obeys rule (s.run events) later := by
  induction events generalizing s with
  | nil => exact ⟨fun h => ⟨True.intro, h⟩, And.right⟩
  | cons e events ih => exact (and_congr_right' ih).trans and_assoc.symm

theorem Obeys.trivial (s : System) (events : List Event) : Obeys (fun _ _ => True) s events := by
  induction events generalizing s with
  | nil => exact True.intro
  | cons e events ih => exact ⟨True.intro, ih _⟩

theorem Obeys.mono {rule rule' : System → Event → Prop} {events : List Event}
    (h : Obeys rule s events) (hr : ∀ {s e}, rule s e → rule' s e) : Obeys rule' s events := by
  induction events generalizing s with
  | nil => exact True.intro
  | cons e events ih => exact ⟨hr h.1, ih h.2⟩

theorem Obeys.and {rule rule' : System → Event → Prop} {events : List Event}
    (h : Obeys rule s events) (h' : Obeys rule' s events) :
    Obeys (fun s e => rule s e ∧ rule' s e) s events := by
  induction events generalizing s with
  | nil => exact True.intro
  | cons e events ih => exact ⟨⟨h.1, h'.1⟩, ih h.2 h'.2⟩

/-- What holds between two events, and whenever a call has come to a stage, in any run that obeys
the rule. -/
structure Invariant (rule : System → Event → Prop) (P : System → Stage → Prop) : Prop where
  inOrder : ∀ {s p}, P s p → InOrder s p
  rest : ∀ {s response}, P s (.concluded response) → P s idle
  start : ∀ {s e s' p}, rule s e → P s idle → Start s e s' p → P s' p
  advance : ∀ {s p s' p'}, P s p → Advance s p s' p' → P s' p'

namespace Invariant

variable {rule rule' : System → Event → Prop} {P Q : System → Stage → Prop}

theorem mono (h : Invariant rule P) (hr : ∀ {s e}, rule' s e → rule s e) : Invariant rule' P :=
  ⟨h.inOrder, h.rest, fun he => h.start (hr he), h.advance⟩

theorem and (h : Invariant rule P) (h' : Invariant rule Q) :
    Invariant rule fun s p => P s p ∧ Q s p where
  inOrder hp := h.inOrder hp.1
  rest hp := ⟨h.rest hp.1, h'.rest hp.2⟩
  start he hp hst := ⟨h.start he hp.1 hst, h'.start he hp.2 hst⟩
  advance hp ha := ⟨h.advance hp.1 ha, h'.advance hp.2 ha⟩

theorem advances (h : Invariant rule P) {result : System × Response} (hp : P s p)
    (ha : Advances s p result) : P result.1 idle :=
  h.rest (ha.preserve h.advance hp)

theorem step (h : Invariant rule P) (hp : P s idle) (hr : rule s e) : P (s.step e).1 idle := by
  obtain ⟨s', p, hs, ha⟩ := follows_step (h.inOrder hp).tidy e
  exact h.advances (h.start hr hp hs) ha

theorem run (h : Invariant rule P) {events : List Event} (hp : P s idle)
    (hr : Obeys rule s events) : P (s.run events) idle := by
  induction events generalizing s with
  | nil => exact hp
  | cons e events ih => exact ih (h.step hp hr.1) hr.2

end Invariant

theorem InOrder.invariant : Invariant (fun _ _ => True) InOrder :=
  ⟨id, InOrder.rest, fun _ h hs => h.start hs, fun h ha => h.advance ha⟩

theorem settings_run (h : InOrder s idle) (events : List Event) :
    (s.run events).settings = s.settings := by
  have hi : Invariant (fun _ _ => True) fun s' p => InOrder s' p ∧ s'.settings = s.settings :=
    ⟨And.left, fun h => ⟨h.1.rest, h.2⟩, fun _ h hs => ⟨h.1.start hs, hs.settings.trans h.2⟩,
      fun h ha => ⟨h.1.advance ha, ha.settings.trans h.2⟩⟩
  exact (hi.run ⟨h, rfl⟩ (Obeys.trivial _ events)).2

end System

end Locking
