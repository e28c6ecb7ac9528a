import Mathlib.Algebra.BigOperators.Group.Finset.Piecewise
import Mathlib.Algebra.Order.BigOperators.Group.Finset
import Locking.Proofs.Commit.Standing
import Locking.Proofs.System.Crowd

/-! What a call has still to do.  Every advance leaves less of it, and so does every reply of a
store, but a request that has been asleep may fall asleep again; then it has used up the
notification that had woken it up. -/

namespace Locking

/-! ### What is left to do -/

/-- The number of locks that are needed after the one that is waited for. -/
def Goal.left : Goal → Nat
  | single => 0
  | plan _ rest => rest.length

/-- A bound on what a call at this point has still to do, given the number of stores of its
transaction.  When a request or a store call fails, all of the stores have to be rolled back. -/
def Point.burden (stores : Nat) : Point → Nat
  -- A store counts twice, for its call and its reply; a lock that is left counts for being asked
  -- for, looked at, granted and kept.
  | waiting _ _ goal => 2 * stores + 5 + 4 * goal.left
  | preparing _ rest => 4 * stores + 5 + 2 * rest.length
  | committing _ rest => 2 * stores + 4 + 2 * rest.length
  | rollingBack _ rest _ => 2 + 2 * rest.length

/-- The same for a call that goes on, given the numbers of stores of the transactions.  It exceeds
that of whatever the call does next, but a request that has been asleep may fall asleep again. -/
def Stage.burden (stores : TransactionRef → Nat) : Stage → Nat
  | concluded _ => 0
  | taking _ r _ needs => 2 * stores r + 3 + 4 * needs.length
  | looking _ r _ _ _ goal hasWaited =>
    2 * stores r + (if hasWaited then 5 else 6) + 4 * goal.left
  | granted _ r _ goal _ => 2 * stores r + 4 + 4 * goal.left
  | failed _ r _ _ => 2 * stores r + 2
  | undoing _ _ _ _ left => 1 + 2 * left.length
  | deciding _ r => 6 * stores r + 5
  | preparing _ r left => 4 * stores r + 4 + 2 * left.length
  | committing _ r left => 2 * stores r + 3 + 2 * left.length

theorem Stage.burden_of_call? {p : Stage} (stores : TransactionRef → Nat) (hp : p.call? = none) :
    p.burden stores = 0 := by
  cases p with
  | concluded => rfl
  | _ => exact absurd hp (by simp [Stage.call?])

/-- The transaction that is to end next, now that all of its stores have been called. -/
def Stage.ending? : Stage → Option TransactionRef
  | undoing _ r _ _ [] | committing _ r [] => some r
  | _ => none

namespace System

variable {s s' : System} {p p' : Stage} {e : Event} {r q : TransactionRef} {b c : CallId}
  {name : LockName}

def storeCount (s : System) (r : TransactionRef) : Nat := (s.transactionAt r).stores.length

/-- What a call that is in progress and does not go on has still to do. -/
def burdenAt (s : System) (c : CallId) : Nat :=
  match s.calls[c]? with
  | some k => k.point.burden (s.storeCount k.transaction)
  | none => 0

theorem burdenAt_of_call {k : Call} (hk : s.calls[c]? = some k) :
    s.burdenAt c = k.point.burden (s.storeCount k.transaction) := by
  rw [burdenAt, hk]

theorem burdenAt_of_none (hk : s.calls[c]? = none) : s.burdenAt c = 0 := by
  rw [burdenAt, hk]

theorem burdenAt_congr (hc : s'.calls[b]? = s.calls[b]?) (hs : s'.storeCount = s.storeCount) :
    s'.burdenAt b = s.burdenAt b := by
  rw [burdenAt, burdenAt, hc, hs]

theorem burdenAt_suspend (s : System) (c : CallId) (k : Call) :
    (s.suspend c k).burdenAt c = k.point.burden (s.storeCount k.transaction) :=
  burdenAt_of_call (s := s.suspend c k) (by rw [calls_suspend, if_pos rfl])

/-- A request that wakes up has still to do what it had to do. -/
theorem burdenAt_rouse {access : Access} {d d' : Deadline} {goal : Goal} {kind : Request}
    {f : Lock → Lock} (hk : s.calls[c]? = some ⟨r, access, .waiting name d goal⟩) :
    ((s.dismiss c).modifyLock name f).burdenAt c +
      (Stage.looking c r name kind d' goal true).burden s.storeCount = s.burdenAt c := by
  have hgone : ((s.dismiss c).modifyLock name f).burdenAt c = 0 :=
    burdenAt_of_none (calls_dismiss.trans (if_pos rfl))
  rw [hgone, Nat.zero_add, burdenAt_of_call hk]
  rfl

/-! ### Lock sets -/

/-- The number of locks in the lock sets of the transactions. -/
def holdings (s : System) : Nat :=
  ∑ r ∈ s.transactions.keys.toFinset, (s.transactionAt r).lockSet.size

theorem holdings_eq_sum (ht : ∀ q, q ∈ s'.transactions ↔ q ∈ s.transactions) : s'.holdings =
    ∑ q ∈ s.transactions.keys.toFinset, (s'.transactionAt q).lockSet.size := by
  have hkeys : s'.transactions.keys.toFinset = s.transactions.keys.toFinset := by
    ext q
    simp only [List.mem_toFinset, Std.ExtTreeMap.mem_keys, ht]
  rw [holdings, hkeys]

theorem holdings_le (ht : ∀ q, q ∈ s'.transactions ↔ q ∈ s.transactions)
    (hs : ∀ q, (s'.transactionAt q).lockSet.size ≤ (s.transactionAt q).lockSet.size) :
    s'.holdings ≤ s.holdings := by
  rw [holdings_eq_sum ht]
  exact Finset.sum_le_sum fun q _ => hs q

theorem holdings_insert (s : System) (r : TransactionRef) (a : EntityId) :
    (s.modifyTransaction r fun t => { t with lockSet := t.lockSet.insert a }).holdings ≤
      s.holdings + 1 := by
  have hone : ∀ q, ((s.modifyTransaction r fun t =>
      { t with lockSet := t.lockSet.insert a }).transactionAt q).lockSet.size ≤
        (s.transactionAt q).lockSet.size + if q = r then 1 else 0 := by
    intro q
    by_cases hq : q = r
    · rw [if_pos hq]
      exact rel_modifyTransaction (R := fun t t' => t'.lockSet.size ≤ t.lockSet.size + 1)
        (fun _ => Nat.le_succ _) fun _ => Std.ExtTreeSet.size_insert_le
    · rw [transactionAt_modifyTransaction_ne hq, if_neg hq]
      exact Nat.le_refl _
  rw [holdings_eq_sum fun _ => mem_transactions_modifyTransaction]
  refine (Finset.sum_le_sum fun q _ => hone q).trans ?_
  rw [Finset.sum_add_distrib, Finset.sum_ite_eq']
  apply Nat.add_le_add_left
  split <;> decide

theorem size_lockSet_retire (s : System) (r : TransactionRef) (state : State) :
    (((s.setState r state).retire r).transactionAt q).lockSet.size ≤
      (s.transactionAt q).lockSet.size := by
  have hstate : ((s.setState r state).transactionAt q).lockSet = (s.transactionAt q).lockSet :=
    lockSet_modifyTransaction fun _ => rfl
  have hlisted : (((s.setState r state).retire r).transactionAt q).lockSet =
      (((s.setState r state).releaseAll r).transactionAt q).lockSet :=
    lockSet_modifyTransaction (s := (s.setState r state).forget r) fun _ => rfl
  rw [hlisted, ← hstate, releaseAll_eq]
  exact rel_modifyTransaction (R := fun t t' => t'.lockSet.size ≤ t.lockSet.size)
    (fun _ => Nat.le_refl _) fun _ => Nat.zero_le _

/-- Releases one lock of the lock set of a transaction, so that it is no longer to be released when
the transaction ends. -/
def releaseOne (s : System) (r : TransactionRef) (a : EntityId) : System :=
  (s.modifyTransaction r fun t => { t with lockSet := t.lockSet.erase a }).release r.id (.entity a)

theorem storeCount_releaseOne (s : System) (r : TransactionRef) (a : EntityId) :
    (s.releaseOne r a).storeCount = s.storeCount :=
  funext fun _ => congrArg List.length (view_modifyTransaction (s := s) Transaction.stores
    (f := fun t => { t with lockSet := t.lockSet.erase a }) fun _ => rfl)

theorem holdings_releaseOne {a : EntityId} (ha : a ∈ (s.transactionAt r).lockSet) :
    (s.releaseOne r a).holdings < s.holdings := by
  have hr : r ∈ s.transactions := by
    by_contra hr
    rw [transactionAt_of_not_mem hr] at ha
    exact absurd ha Std.ExtTreeSet.not_mem_empty
  have hless : ((s.transactionAt r).lockSet.erase a).size < (s.transactionAt r).lockSet.size := by
    rw [Std.ExtTreeSet.size_erase, if_pos (Std.ExtTreeSet.contains_iff_mem.mpr ha)]
    have hpos : (s.transactionAt r).lockSet.size ≠ 0 := fun h =>
      Std.ExtTreeSet.not_mem_empty (Std.ExtTreeSet.eq_empty_iff_size_eq_zero.mpr h ▸ ha)
    omega
  show (s.modifyTransaction r fun t => { t with lockSet := t.lockSet.erase a }).holdings < _
  rw [holdings_eq_sum fun _ => mem_transactions_modifyTransaction]
  refine Finset.sum_lt_sum (fun q _ => ?_)
    ⟨r, List.mem_toFinset.mpr (Std.ExtTreeMap.mem_keys.mpr hr), ?_⟩
  · exact rel_modifyTransaction (R := fun t t' => t'.lockSet.size ≤ t.lockSet.size)
      (fun _ => Nat.le_refl _) fun _ => Std.ExtTreeSet.size_erase_le
  · rwa [transactionAt_modifyTransaction s r r _ hr, if_pos rfl]

/-! ### Notifications -/

/-- A call is asleep on a lock and has been notified. -/
def Due (s : System) (c : CallId) : Prop :=
  ∃ name, ∃ w ∈ (s.lockAt name).waiters, w.call = c ∧ w.isNotified = true

instance (s : System) (c : CallId) : Decidable (s.Due c) :=
  decidable_of_iff
    (∃ entry ∈ s.locks.toList, ∃ w ∈ entry.2.waiters, w.call = c ∧ w.isNotified = true) <| by
    constructor
    · rintro ⟨⟨name, l⟩, hl, h⟩
      refine ⟨name, ?_⟩
      rw [lockAt, Std.ExtTreeMap.mem_toList_iff_getElem?_eq_some.mp hl]
      exact h
    · rintro ⟨name, w, hw, h⟩
      have hl := mem_locks_of_waiter hw
      refine ⟨(name, s.locks[name]), Std.ExtTreeMap.mem_toList_iff_getElem?_eq_some.mpr
        (Std.ExtTreeMap.getElem?_eq_some_getElem hl), w, ?_, h⟩
      rwa [lockAt, Std.ExtTreeMap.getElem?_eq_some_getElem hl] at hw

/-- A request that falls asleep again has been told nothing since. -/
theorem Waiting.due_of_sleep {kind : Request} {d : Deadline} {goal : Goal} {g : WaitForGraph}
    {k : Call} (h : Waiting s (.looking c r name kind d goal true))
    (ho : InOrder s (.looking c r name kind d goal true))
    (hdue : Due (((s.modifyLock name fun l =>
      (l.approach r.id kind true).park c r.id kind).setGraph g).suspend c k) b) :
    b ≠ c ∧ s.Due b := by
  obtain ⟨other, v, hv, rfl, hn⟩ := hdue
  have hv : v ∈ ((s.modifyLock name fun l =>
    (l.approach r.id kind true).park c r.id kind).lockAt other).waiters := hv
  have hold : v ∈ (s.lockAt other).waiters := by
    by_cases hother : other = name
    · subst hother
      rw [lockAt_modifyLock_self (h.looked other rfl)] at hv
      rcases List.mem_append.mp hv with hv | hv
      · simpa using hv
      · rw [List.mem_singleton.mp hv] at hn
        exact absurd hn (by simp)
    · rwa [lockAt_modifyLock_ne hother] at hv
  exact ⟨h.call_ne ho rfl v hold, other, v, hold, rfl, hn⟩

/-- A request that wakes up has received its notification, and the others have not. -/
theorem Waiting.due_of_rouse {d : Deadline} {goal : Goal} {w : Waiter} (h : Waiting s idle)
    (hk : s.calls[c]? = some ⟨r, .shared, .waiting name d goal⟩)
    (hw : (s.lockAt name).waiter? c = some w)
    (hdue : ((s.dismiss c).modifyLock name (·.rouse w)).Due b) : b ≠ c ∧ s.Due b := by
  obtain ⟨other, v, hv, rfl, hn⟩ := hdue
  obtain ⟨hv, hne⟩ := (h.mem_waiters_rouse hk hw).mp hv
  exact ⟨hne, other, v, hv, rfl, hn⟩

/-! ### What one advance leaves to do -/

theorem Advance.storeCount (ha : Advance s p s' p') : s'.storeCount = s.storeCount :=
  funext fun _ => congrArg List.length ha.stores

theorem Advance.calls_ne (ha : Advance s p s' p') (hc : p.call? = some c) (hb : b ≠ c) :
    s'.calls[b]? = s.calls[b]? := by
  cases ha.keeps with
  | nothing hcalls => rw [hcalls]
  | @call d _ _ _ hd _ _ hcalls =>
    obtain rfl := Option.some.inj (hd.symm.trans hc)
    rw [hcalls, Std.ExtTreeMap.getElem?_insert, if_neg (by simpa using Ne.symm hb)]

/-- An advance leaves less to do, or lets a request that has been notified fall asleep again. -/
theorem Advance.eases (ho : InOrder s p) (hw : Waiting s p) (ha : Advance s p s' p')
    (hc : p.call? = some c) :
    s'.burdenAt c + p'.burden s'.storeCount < p.burden s.storeCount ∨
      s'.burdenAt c + p'.burden s'.storeCount = p.burden s.storeCount ∧
        s'.holdings = s.holdings ∧ p.lock?.isSome ∧ p'.call? = none ∧
        ∀ b, s'.Due b → b ≠ c ∧ s.Due b := by
  have hgone : s'.calls = s.calls → s'.burdenAt c = 0 := fun hcalls =>
    burdenAt_of_none (hcalls ▸ (ho.going c hc).1)
  rw [ha.storeCount]
  cases ha with
  | @sleep c r name kind d goal w =>
    cases hc
    rw [burdenAt_suspend]
    cases w with
    | false => exact .inl (Nat.add_lt_add_right (Nat.lt_succ_self (2 * s.storeCount r + 5)) _)
    | true => exact .inr ⟨rfl, rfl, rfl, rfl, fun b hdue => hw.due_of_sleep ho hdue⟩
  | undo | prepare | commit =>
    cases hc
    rw [burdenAt_suspend]
    simp only [Point.burden, Stage.burden, List.length_cons]
    omega
  | undone | committed =>
    rw [hgone (calls_retire _ _).1]
    exact .inl (by simp [Stage.burden])
  | @removed c r access =>
    have hretired := (calls_retire (s.setState r .aborted) r).1
    rw [hgone ((calls_alert _ _).1.trans hretired)]
    exact .inl (by simp [Stage.burden])
  | @grant c r name kind d goal w | @fail c r name kind d goal w =>
    rw [hgone rfl]
    simp only [Stage.burden]
    split <;> omega
  | _ =>
    rw [hgone rfl]
    simp only [Stage.burden, Goal.left, List.length_cons, List.length_nil, System.storeCount,
      reduceIte, Bool.false_eq_true]
    omega

/-- A granted request adds one lock to the lock set of its transaction, and no other advance adds
any. -/
theorem Advance.holdings_le (ha : Advance s p s' p') : s'.holdings ≤ s.holdings + 1 := by
  have hsame : (∀ q, (s'.transactionAt q).lockSet.size ≤ (s.transactionAt q).lockSet.size) →
      s'.holdings ≤ s.holdings + 1 := fun h =>
    (System.holdings_le (fun _ => ha.mem_transactions) h).trans (Nat.le_succ _)
  cases ha with
  | keep => exact s.holdings_insert _ _
  | undone | committed => exact hsame fun _ => size_lockSet_retire s _ _
  | removed =>
    refine hsame fun q => ?_
    rw [transactionAt_alert]
    exact size_lockSet_retire s _ _
  | ask | grant | fail | abort | beginPhased | beginAtOnce =>
    exact hsame fun _ => Nat.le_of_eq (congrArg _ (lockSet_modifyTransaction fun _ => rfl))
  | _ => exact hsame fun _ => Nat.le_refl _

/-- A store that replies leaves less to do for the call that waited for it. -/
theorem Start.eases {k : Call} {answer : Reply} (ho : InOrder s idle)
    (hst : Start s (.reply c answer) s' p) (hk : s.calls[c]? = some k)
    (hp : k.point.isAsleep = false) :
    s'.burdenAt c + p.burden s'.storeCount < s.burdenAt c ∧ s'.storeCount = s.storeCount ∧
      s'.holdings ≤ s.holdings ∧ s'.nextCall = s.nextCall ∧
      (∀ b, b ≠ c → s'.calls[b]? = s.calls[b]?) ∧ ∀ b, p.call? = some b → b = c := by
  have hstores : s'.storeCount = s.storeCount :=
    funext fun q => congrArg List.length (hst.stores ho (by simp))
  have hgone : s'.calls = (s.dismiss c).calls → s'.burdenAt c = 0 := fun hcalls =>
    burdenAt_of_none (by rw [hcalls, calls_dismiss, if_pos rfl])
  have hothers : ∀ b, b ≠ c → (s.dismiss c).calls[b]? = s.calls[b]? := fun b hb => by
    rw [calls_dismiss, if_neg hb]
  have hheld : ∀ {r state}, ((s.dismiss c).setState r state).holdings ≤ s.holdings := fun {r} _ =>
    holdings_le (fun _ => mem_transactions_modifyTransaction) fun _ =>
      Nat.le_of_eq (congrArg _ (lockSet_modifyTransaction fun _ => rfl))
  rw [hstores]
  cases hst with
  | quiet _ hquiet => exact absurd (hquiet c answer rfl k hk) (by simp [hp])
  | prepared hk' | committed hk' | rolledBack hk' | notPreparedEnded hk' | notCommittedEnded hk' =>
    refine ⟨?_, rfl, Nat.le_refl _, rfl, hothers, fun b hb => by cases hb <;> rfl⟩
    rw [hgone rfl, burdenAt_of_call hk']
    simp only [Stage.burden, Point.burden, System.storeCount]
    omega
  | notPrepared hk' | notCommitted hk' =>
    refine ⟨?_, rfl, hheld, rfl, hothers, fun b hb => by cases hb; rfl⟩
    rw [hgone rfl, burdenAt_of_call hk']
    simp only [Stage.burden, Point.burden, System.storeCount]
    omega

/-- A call that goes on can always advance. -/
theorem exists_advance (s : System) (hc : p.call? = some c) : ∃ s' p', Advance s p s' p' := by
  cases p with
  | concluded => exact absurd hc (by simp [Stage.call?])
  | taking c r d needs =>
    cases needs with
    | nil => exact ⟨_, _, .done⟩
    | cons n rest =>
      cases hi : (s.transactionAt r).isInterrupted with
      | true => exact ⟨_, _, .refuse hi⟩
      | false =>
        cases hk : Request.of? ((s.lockAt (.entity n.entity)).modeOf r.id) n.mode with
        | none => exact ⟨_, _, .covered hi hk⟩
        | some kind => exact ⟨_, _, .ask hi hk⟩
  | looking c r name kind d goal w =>
    rcases hj : (s.attempt c r kind d w).judge ((s.lockAt name).approach r.id kind w) s.graph with
      ⟨g, verdict⟩
    cases verdict with
    | sleeps => exact ⟨_, _, .sleep hj⟩
    | granted => exact ⟨_, _, .grant hj⟩
    | failed error => exact ⟨_, _, .fail hj⟩
  | granted c r d goal w =>
    cases goal with
    | single => exact ⟨_, _, .grantedSingle⟩
    | plan e rest =>
      by_cases hs : (s.transactionAt r).state = .active
      · exact ⟨_, _, .keep hs⟩
      · exact ⟨_, _, .giveBack hs⟩
  | failed c r goal error =>
    cases goal with
    | single => exact ⟨_, _, .failedSingle⟩
    | plan e rest =>
      cases hs : (s.transactionAt r).state.canRollBack with
      | true => exact ⟨_, _, .abort hs⟩
      | false => exact ⟨_, _, .abortEnded hs⟩
  | undoing c r access cause stores =>
    cases stores with
    | cons => exact ⟨_, _, .undo⟩
    | nil =>
      by_cases hcause : cause = .removal
      · subst hcause
        exact ⟨_, _, .removed⟩
      · exact ⟨_, _, .undone hcause⟩
  | deciding c r =>
    cases ht : s.twoPhaseCommit r.manager with
    | true => exact ⟨_, _, .beginPhased ht⟩
    | false => exact ⟨_, _, .beginAtOnce ht⟩
  | preparing c r stores =>
    cases stores with
    | cons => exact ⟨_, _, .prepare⟩
    | nil => exact ⟨_, _, .prepared⟩
  | committing c r stores =>
    cases stores with
    | cons => exact ⟨_, _, .commit⟩
    | nil => exact ⟨_, _, .committed⟩

end System

end Locking
