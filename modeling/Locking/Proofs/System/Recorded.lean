import Locking.Proofs.System.Waiting

/-! One manager whose locks are taken through it alone.  Whatever a transaction holds or waits to
upgrade is in its lock set, which is empty once the transaction has ended, so nothing is left
behind when the lock set is released. -/

namespace Locking

/-- Whether an event acquires, upgrades or releases a single lock. -/
def Event.usesLock : Event → Bool
  | acquire .. | upgrade .. | release .. => true
  | _ => false

/-- The lock that has just been granted to a transaction and is to enter its lock set. -/
def Stage.granted? : Stage → Option (TransactionRef × EntityId)
  | granted _ r _ (.plan e _) _ => some (r, e)
  | _ => none

/-- A transaction has neither changed its lock set nor come to its end. -/
def Transaction.Keeps (t t' : Transaction) : Prop :=
  t'.lockSet = t.lockSet ∧ (t'.state.isFinal = true → t.state.isFinal = true)

theorem Transaction.Keeps.trans {t t' t'' : Transaction} (h : t.Keeps t') (h' : t'.Keeps t'') :
    t.Keeps t'' :=
  ⟨h'.1.trans h.1, fun hf => h.2 (h'.2 hf)⟩

namespace Lock

variable {l : Lock} {i j : TransactionId} {kind : Request} {w : Bool} {c : CallId}

/-- Whether a transaction owns the lock or waits to upgrade its hold. -/
def Has (l : Lock) (i : TransactionId) : Prop := i ∈ l.owners ∨ i ∈ l.upgraders

theorem has_approach (h : (l.approach i kind w).Has j) :
    l.Has j ∨ j = i ∧ w = false ∧ kind = .upgrade := by
  unfold approach at h
  split at h
  · exact .inl h
  · next hw =>
    rcases h with h | h
    · exact .inl (.inl (mem_owners_enter.mp h).1)
    · rcases mem_upgraders_enter.mp h with h | ⟨hk, hj⟩
      · exact .inl (.inr h)
      · exact .inr ⟨hj, by simpa using hw, hk⟩

/-- Whoever is in the way of a request has the lock. -/
theorem has_of_mem_blockers (h : j ∈ (l.approach i kind w).blockers i kind) : j ≠ i ∧ l.Has j := by
  obtain ⟨hne, hj⟩ := mem_blockers.mp h
  exact ⟨hne, (has_approach (hj.imp id And.right)).resolve_right fun hji => hne hji.1⟩

theorem has_park : (l.park c i kind).Has j ↔ l.Has j := Iff.rfl

theorem has_notify : l.notify.Has j ↔ l.Has j := Iff.rfl

theorem has_grant (h : (l.grant i kind).Has j) : l.Has j ∨ j = i := by
  rcases h with h | h
  · rcases mem_owners_grant.mp h with h | ⟨-, h⟩
    · exact .inr h
    · exact .inl (.inl h)
  · exact .inl (.inr (mem_upgraders_grant.mp h).2)

theorem has_abandon (h : (l.abandon i).Has j) : l.Has j := by
  rcases h with h | h
  · exact .inl (by simpa using h)
  · exact .inr (mem_upgraders_abandon.mp h).2

theorem has_release : (l.release i).Has j ↔ j ≠ i ∧ l.Has j := by
  simp only [Has, mem_owners_release, mem_upgraders_release, and_or_left]

theorem not_has_default : ¬ (default : Lock).Has j := by
  rintro (h | h) <;> exact absurd h (by simp [default])

/-- A transaction that begins to upgrade gives up its hold for a pending upgrade. -/
theorem Has.approach (h : l.Has j) : (l.approach i kind w).Has j := by
  unfold Lock.approach
  split
  · exact h
  · by_cases hj : kind = .upgrade ∧ j = i
    · exact .inr (mem_upgraders_enter.mpr (.inr hj))
    · refine h.imp (fun ho => mem_owners_enter.mpr ⟨ho, fun hk hji => hj ⟨hk, hji⟩⟩) fun hu => ?_
      exact mem_upgraders_enter.mpr (.inl hu)

theorem has_grant_self : (l.grant i kind).Has i := .inl (mem_owners_grant.mpr (.inl rfl))

theorem Has.grant (h : l.Has j) (hg : l.grantable i kind = true) : (l.grant i kind).Has j := by
  by_cases hji : j = i
  · exact hji ▸ has_grant_self
  rcases h with h | h
  · cases kind with
    | shared => exact .inl (mem_owners_grant.mpr (.inr ⟨rfl, h⟩))
    | exclusive => exact absurd h ((grantable_exclusive_iff.mp hg).1 j)
    | upgrade => exact absurd (grantable_upgrade_iff.mp hg j h) hji
  · exact .inr (mem_upgraders_grant.mpr ⟨hji, h⟩)

theorem Has.abandon (h : l.Has j) (hj : j ≠ i) : (l.abandon i).Has j :=
  h.imp (by simp) fun hu => mem_upgraders_abandon.mpr ⟨hj, hu⟩

end Lock

namespace System

variable {s s' : System} {p p' : Stage} {e : Event} {r q : TransactionRef} {c : CallId}
  {name : LockName} {i : TransactionId}

/-- Whether the request of the call that goes on is part of a plan.  An upgrade that is about to
look for the first time is made by a transaction that has the lock. -/
def Planned (s : System) : Stage → Prop
  | .looking _ r name kind _ goal w =>
    (∃ e rest, name = .entity e ∧ goal = .plan e rest) ∧
      (w = false → kind = .upgrade → (s.lockAt name).Has r.id)
  | .granted _ _ _ goal _ => ∃ e rest, goal = .plan e rest ∧ LockName.entity e ∈ s.locks
  | .failed _ _ goal _ => ∃ e rest, goal = .plan e rest
  | _ => True

/-- What one manager knows of the locks of its transactions. -/
structure Recorded (s : System) (p : Stage) : Prop where
  single : ∃ n, s.begun = [n]
  planned : ∀ c r name d goal, s.sleeperAt c = some (r, name, d, goal) →
    ∃ e rest, name = .entity e ∧ goal = .plan e rest
  stage : s.Planned p
  kept : ∀ r, ∀ e ∈ (s.transactionAt r).lockSet, LockName.entity e ∈ s.locks
  listed : ∀ name i, (s.lockAt name).Has i → name ∈ (s.transactionAt ⟨0, i⟩).lockedNames ∨
    ∃ e, p.granted? = some (⟨0, i⟩, e) ∧ name = .entity e
  final : ∀ r, (s.transactionAt r).state.isFinal = true → (s.transactionAt r).lockSet = ∅

theorem lockedNames_congr {t t' : Transaction} (h : t'.lockSet = t.lockSet) :
    t'.lockedNames = t.lockedNames := by
  rw [Transaction.lockedNames, Transaction.lockedNames, Transaction.lockedEntities, h,
    Transaction.lockedEntities]

/-- A transaction of the one manager is named by its number. -/
theorem InOrder.ref_eq (h : InOrder s p) (hs : ∃ n, s.begun = [n]) (hr : r ∈ s.transactions) :
    r = ⟨0, r.id⟩ := by
  obtain ⟨n, hn⟩ := hs
  obtain ⟨k, hk, -⟩ := h.numbered r hr
  rw [hn] at hk
  obtain ⟨m, i⟩ := r
  cases m with
  | zero => rfl
  | succ m => exact absurd hk (by simp)

/-- A waiter belongs to a call that is asleep on the lock, for the transaction of its number. -/
theorem Waiting.call_of_waiter (h : Waiting s p) (ho : InOrder s p) (hs : ∃ n, s.begun = [n])
    {v : Waiter} (hv : v ∈ (s.lockAt name).waiters) : ∃ d goal,
      s.calls[v.call]? = some ⟨⟨0, v.transaction⟩, .shared, .waiting name d goal⟩ := by
  obtain ⟨q, d, goal, hsleep, hq⟩ := h.caller name v hv
  have hk := ho.call_of_sleeperAt hsleep
  have hid : q = ⟨0, v.transaction⟩ := hq ▸ ho.ref_eq hs (ho.known _ _ hk)
  exact ⟨d, goal, hid ▸ hk⟩

/-- It stays the only manager. -/
theorem Start.single (hs : Start s e s' p) (h : ∃ n, s.begun = [n]) : ∃ n, s'.begun = [n] := by
  by_cases hbegin : ∃ m, e = .begin m
  · obtain ⟨m, rfl⟩ := hbegin
    obtain ⟨n, hn⟩ := h
    cases hs with
    | quiet => exact ⟨n, hn⟩
    | begin =>
      simp only [hn]
      cases m <;> exact ⟨_, rfl⟩
  · exact (hs.begun fun m hm => hbegin ⟨m, hm⟩) ▸ h

namespace Recorded

theorem ref_eq (h : Recorded s p) (ho : InOrder s p) (hr : r ∈ s.transactions) :
    r = ⟨0, r.id⟩ := ho.ref_eq h.single hr

theorem frame (h : Recorded s p) (hb : ∃ n, s'.begun = [n])
    (hs : ∀ c r name d goal, s'.sleeperAt c = some (r, name, d, goal) →
      ∃ e rest, name = .entity e ∧ goal = .plan e rest)
    (hp : s'.Planned p') (hl : ∀ name ∈ s.locks, name ∈ s'.locks)
    (ht : ∀ q, (s.transactionAt q).Keeps (s'.transactionAt q))
    (hh : ∀ name i, (s'.lockAt name).Has i → name ∈ (s.transactionAt ⟨0, i⟩).lockedNames ∨
      ∃ e, p'.granted? = some (⟨0, i⟩, e) ∧ name = .entity e) : Recorded s' p' where
  single := hb
  planned := hs
  stage := hp
  kept q e he := hl _ (h.kept q e ((ht q).1 ▸ he))
  listed name i hi := by
    rw [lockedNames_congr (ht ⟨0, i⟩).1]
    exact hh name i hi
  final q hq := (ht q).1.trans (h.final q ((ht q).2 hq))

end Recorded

/-- Whatever the releases of a lock set leave, it is not the transaction that has it. -/
theorem has_releaseAll (h : ((s.releaseAll r).lockAt name).Has i) :
    (s.lockAt name).Has i ∧ (name ∈ (s.transactionAt r).lockedNames → i ≠ r.id) := by
  by_cases hl : name ∈ s.locks
  · rw [lockAt_releaseAll hl] at h
    split at h
    · obtain ⟨hne, h⟩ := Lock.has_release.mp h
      exact ⟨h, fun _ => hne⟩
    · next hn => exact ⟨h, fun hmem => absurd hmem hn⟩
  · rw [lockAt_of_not_mem (mt mem_locks_releaseAll.mp hl)] at h
    exact absurd h Lock.not_has_default

theorem has_modifyLock {other : LockName} {f : Lock → Lock}
    (h : ((s.modifyLock name f).lockAt other).Has i) :
    (s.lockAt other).Has i ∧ other ≠ name ∨ other = name ∧ (f (s.lockAt name)).Has i := by
  by_cases hl : name ∈ s.locks
  · by_cases hn : other = name
    · rw [hn, lockAt_modifyLock_self hl] at h
      exact .inr ⟨hn, h⟩
    · rw [lockAt_modifyLock_ne hn] at h
      exact .inl ⟨h, hn⟩
  · rw [modifyLock_of_not_mem hl] at h
    refine .inl ⟨h, ?_⟩
    rintro rfl
    rw [lockAt_of_not_mem hl] at h
    exact Lock.not_has_default h

/-- Who has a lock keeps it if the change of a lock takes it from nobody. -/
theorem has_modifyLock_of_has {other : LockName} {f : Lock → Lock} (h : (s.lockAt other).Has i)
    (hf : (s.lockAt name).Has i → (f (s.lockAt name)).Has i) :
    ((s.modifyLock name f).lockAt other).Has i :=
  rel_modifyLock (R := fun l l' => l.Has i → l'.Has i) (fun _ => id) (fun _ => hf) other h

theorem has_releaseAll_of_has (h : (s.lockAt name).Has i) (hi : i ≠ r.id) :
    ((s.releaseAll r).lockAt name).Has i :=
  rel_releaseAll (R := fun l l' => l.Has i → l'.Has i) (fun _ => id)
    (fun _ h => Lock.has_release.mpr ⟨hi, h⟩) name h

theorem has_release {j : TransactionId} {other : LockName}
    (h : ((s.release j name).lockAt other).Has i) :
    (s.lockAt other).Has i ∧ (other = name → i ≠ j) := by
  have h : ((s.modifyLock name fun l => l.release j).lockAt other).Has i := h
  rcases has_modifyLock h with ⟨hi, hn⟩ | ⟨rfl, hi⟩
  · exact ⟨hi, fun hn' => absurd hn' hn⟩
  · obtain ⟨hne, hi⟩ := Lock.has_release.mp hi
    exact ⟨hi, fun _ => hne⟩

theorem has_alert : ((s.alert r).lockAt name).Has i ↔ (s.lockAt name).Has i :=
  rel_alert (R := fun l l' => l'.Has i ↔ l.Has i) (fun _ => .rfl) (fun _ => Lock.has_notify) r name

theorem mem_locks_alert : name ∈ (s.alert r).locks ↔ name ∈ s.locks := by
  obtain h | ⟨other, h⟩ := alert_eq s r
  · rw [h]
  · rw [h]
    exact mem_locks_modifyLock

namespace Recorded

/-- A transaction has released its lock set, and with it all that it had. -/
theorem released (h : Recorded s p) (hg : p.granted? = none) (hb : ∃ n, s'.begun = [n])
    (hs : ∀ c, s'.sleeperAt c = s.sleeperAt c) (hp : s'.Planned p')
    (hl : ∀ name ∈ s.locks, name ∈ s'.locks) (hself : (s'.transactionAt r).lockSet = ∅)
    (ht : ∀ q, q ≠ r → (s'.transactionAt q).lockSet = (s.transactionAt q).lockSet ∧
      (s'.transactionAt q).state = (s.transactionAt q).state)
    (hh : ∀ name i, (s'.lockAt name).Has i → (s.lockAt name).Has i ∧
      (name ∈ (s.transactionAt r).lockedNames → i ≠ r.id)) : Recorded s' p' where
  single := hb
  planned c q name d goal hc := h.planned c q name d goal (hs c ▸ hc)
  stage := hp
  kept q e he := by
    by_cases hq : q = r
    · rw [hq, hself] at he
      exact absurd he (by simp)
    · rw [(ht q hq).1] at he
      exact hl _ (h.kept q e he)
  listed name i hi := by
    obtain ⟨hi, hne⟩ := hh name i hi
    have hlisted : name ∈ (s.transactionAt ⟨0, i⟩).lockedNames := by
      rcases h.listed name i hi with hlisted | ⟨e, he, -⟩
      · exact hlisted
      · rw [hg] at he
        exact absurd he (by simp)
    by_cases hq : (⟨0, i⟩ : TransactionRef) = r
    · rw [hq] at hlisted
      exact absurd (congrArg TransactionRef.id hq) (hne hlisted)
    · rw [lockedNames_congr (ht _ hq).1]
      exact .inl hlisted
  final q hq := by
    by_cases hqr : q = r
    · rw [hqr, hself]
    · rw [(ht q hqr).1]
      exact h.final q ((ht q hqr).2 ▸ hq)

/-- Unless a lock has just been granted, what a transaction has is in its lock set. -/
theorem listed_of_has (h : Recorded s p) (hg : p.granted? = none) {i : TransactionId}
    (hi : (s.lockAt name).Has i) : name ∈ (s.transactionAt ⟨0, i⟩).lockedNames := by
  rcases h.listed name i hi with hlisted | ⟨e, he, -⟩
  · exact hlisted
  · rw [hg] at he
    exact absurd he (by simp)

/-- An ended transaction has no lock and waits to upgrade none. -/
theorem not_has_of_isFinal (h : Recorded s p) (hg : p.granted? = none) {i : TransactionId}
    (hf : (s.transactionAt ⟨0, i⟩).state.isFinal = true) (name : LockName) :
    ¬ (s.lockAt name).Has i := by
  intro hi
  obtain ⟨e, he, -⟩ := Transaction.mem_lockedNames.mp (h.listed_of_has hg hi)
  rw [h.final _ hf] at he
  exact absurd he (by simp)

/-- What an advance leaves in the lock of which a request has made something. -/
theorem listed_looked (h : Recorded s p) (hg : p.granted? = none) {f : Lock → Lock}
    (hf : ∀ i, (f (s.lockAt name)).Has i → (s.lockAt name).Has i ∨
      ∃ e, p'.granted? = some (⟨0, i⟩, e) ∧ name = .entity e)
    (other : LockName) (i : TransactionId) (hi : ((s.modifyLock name f).lockAt other).Has i) :
    other ∈ (s.transactionAt ⟨0, i⟩).lockedNames ∨
      ∃ e, p'.granted? = some (⟨0, i⟩, e) ∧ other = .entity e := by
  rcases has_modifyLock hi with ⟨hi, -⟩ | ⟨rfl, hi⟩
  · exact .inl (h.listed_of_has hg hi)
  · rcases hf i hi with hi | hi
    · exact .inl (h.listed_of_has hg hi)
    · exact .inr hi

theorem still (h : Recorded s p) (hg : p.granted? = none) (hb : ∃ n, s'.begun = [n])
    (hs : ∀ c, s'.sleeperAt c = s.sleeperAt c) (hp : s'.Planned p')
    (hl : ∀ name ∈ s.locks, name ∈ s'.locks)
    (ht : ∀ q, (s.transactionAt q).Keeps (s'.transactionAt q))
    (hh : ∀ name i, (s'.lockAt name).Has i → (s.lockAt name).Has i) : Recorded s' p' :=
  h.frame hb (fun c q name d goal hc => h.planned c q name d goal (hs c ▸ hc)) hp hl ht
    fun name i hi => .inl (h.listed_of_has hg (hh name i hi))

theorem quiet (h : Recorded s p) (hg : p.granted? = none) (hb : ∃ n, s'.begun = [n])
    (hs : ∀ c, s'.sleeperAt c = s.sleeperAt c) (hp : s'.Planned p') (hl : s'.locks = s.locks)
    (ht : ∀ q, (s.transactionAt q).Keeps (s'.transactionAt q)) : Recorded s' p' :=
  h.still hg hb hs hp (fun _ hmem => hl ▸ hmem) ht fun _ _ hi => by rwa [lockAt, hl] at hi

/-- A granted lock has entered the lock set. -/
theorem keep {c : CallId} {d : Deadline} {e : EntityId} {rest : List Need} {w : Bool}
    {statistics : Statistics} (h : Recorded s (.granted c r d (.plan e rest) w))
    (ho : InOrder s (.granted c r d (.plan e rest) w))
    (hs : (s.transactionAt r).state = .active) :
    Recorded ((s.modifyTransaction r fun t =>
      { t with lockSet := t.lockSet.insert e }).setStatistics statistics) (.taking c r d rest) := by
  have hr : r ∈ s.transactions := ho.user r .shared rfl
  obtain ⟨_, _, hgoal, hl⟩ := h.stage
  cases hgoal
  have hat : ∀ q, (s.modifyTransaction r fun t =>
      { t with lockSet := t.lockSet.insert e }).transactionAt q =
        if q = r then { s.transactionAt r with lockSet := (s.transactionAt r).lockSet.insert e }
        else s.transactionAt q := fun q => transactionAt_modifyTransaction s r q _ hr
  have hset : ∀ q, ∀ a, a ∈ ((s.modifyTransaction r fun t =>
      { t with lockSet := t.lockSet.insert e }).transactionAt q).lockSet ↔
        q = r ∧ a = e ∨ a ∈ (s.transactionAt q).lockSet := by
    intro q a
    rw [hat]
    split
    · next hq =>
      rw [hq, Std.ExtTreeSet.mem_insert, Std.LawfulEqOrd.compare_eq_iff_eq, eq_comm]
      simp
    · next hq => simp [hq]
  refine ⟨h.single, h.planned, trivial, ?_, ?_, ?_⟩
  · intro q a ha
    rcases (hset q a).mp ha with ⟨-, rfl⟩ | ha
    · exact hl
    · exact h.kept q a ha
  · intro name i hi
    apply Or.inl
    apply Transaction.mem_lockedNames.mpr
    rcases h.listed name i hi with hlisted | ⟨a, ha, hn⟩
    · obtain ⟨a, ha, hn⟩ := Transaction.mem_lockedNames.mp hlisted
      exact ⟨a, (hset _ a).mpr (.inr ha), hn⟩
    · cases ha
      exact ⟨e, (hset _ e).mpr (.inl ⟨rfl, rfl⟩), hn⟩
  · intro q hq
    have hq' : ((s.modifyTransaction r fun t =>
      { t with lockSet := t.lockSet.insert e }).transactionAt q).state.isFinal = true := hq
    show ((s.modifyTransaction r fun t =>
      { t with lockSet := t.lockSet.insert e }).transactionAt q).lockSet = ∅
    rw [hat] at hq' ⊢
    split at hq'
    · rw [hs] at hq'
      exact absurd hq' (by simp [State.isFinal])
    · next hqr =>
      rw [if_neg hqr]
      exact h.final q hq'

theorem retired (h : Recorded s p) (state : State) (hg : p.granted? = none)
    (hr : r ∈ s.transactions) : Recorded ((s.setState r state).retire r) idle := by
  have hset : ((s.setState r state).transactionAt r).lockedNames =
      (s.transactionAt r).lockedNames :=
    lockedNames_congr (view_modifyTransaction Transaction.lockSet fun _ => rfl)
  have hr' : r ∈ (s.setState r state).transactions := mem_transactions_modifyTransaction.mpr hr
  have hat : ∀ q, ((s.setState r state).retire r).transactionAt q =
      if q = r then { (s.setState r state).transactionAt r with
        lockSet := ∅, isRegistered := false }
      else (s.setState r state).transactionAt q := fun q => transactionAt_retire hr'
  have hb : ((s.setState r state).retire r).begun = s.begun := begun_retire _ _
  refine h.released (r := r) hg (hb ▸ h.single) (sleeperAt_congr (calls_retire _ _).1) trivial
    (fun name hl => mem_locks_releaseAll.mpr hl) ?_ (fun q hq => ?_) fun name i hi => ?_
  · rw [hat, if_pos rfl]
  · rw [hat, if_neg hq, setState, transactionAt_modifyTransaction s r q _ hr, if_neg hq]
    exact ⟨rfl, rfl⟩
  · have := has_releaseAll (s := s.setState r state) hi
    rwa [hset] at this

theorem alerted (h : Recorded s idle) (r : TransactionRef) {response : Response} :
    Recorded (s.alert r) (.concluded response) :=
  h.still rfl ((begun_alert s r).symm ▸ h.single) (sleeperAt_congr (calls_alert s r).1) trivial
    (fun _ hl => mem_locks_alert.mpr hl) (fun q => by rw [transactionAt_alert]; exact ⟨rfl, id⟩)
    fun _ _ hi => has_alert.mp hi

theorem advance (h : Recorded s p) (ho : InOrder s p) (hw : Waiting s p) (ha : Advance s p s' p') :
    Recorded s' p' := by
  have hb : ∃ n, s'.begun = [n] := ha.begun ▸ h.single
  have hkept : ∀ {f : Transaction → Transaction} {r}, (∀ t : Transaction, t.Keeps (f t)) → ∀ q,
      (s.transactionAt q).Keeps ((s.modifyTransaction r f).transactionAt q) :=
    fun hf q => rel_modifyTransaction (fun t => ⟨rfl, id⟩) hf
  have hsame : ∀ q, (s.transactionAt q).Keeps (s.transactionAt q) := fun q => ⟨rfl, id⟩
  have hadd : ∀ {other name i}, ((s.addLock other).lockAt name).Has i → (s.lockAt name).Has i :=
    fun hi => by rwa [lockAt_addLock] at hi
  have hmem : ∀ {other}, ∀ name ∈ s.locks, name ∈ (s.addLock other).locks :=
    fun _ hl => mem_locks_addLock.mpr (.inr hl)
  cases ha with
  | refuse =>
    exact h.still rfl hb (fun _ => rfl) ⟨_, _, rfl⟩ hmem hsame fun _ _ => hadd
  | covered =>
    exact h.still rfl hb (fun _ => rfl) ⟨_, _, rfl, mem_locks_addLock.mpr (.inl rfl)⟩ hmem hsame
      fun _ _ => hadd
  | @ask c r d n rest kind hi hk =>
    refine h.still rfl hb (fun _ => rfl) ⟨⟨_, _, rfl, rfl⟩, fun _ hu => ?_⟩ hmem
      (hkept fun t => ⟨rfl, id⟩) fun _ _ => hadd
    show ((s.addLock (.entity n.entity)).lockAt (.entity n.entity)).Has r.id
    rw [lockAt_addLock]
    -- Only a transaction that owns the lock asks for an upgrade.
    apply Or.inl
    by_contra hn
    rw [Lock.modeOf, if_neg hn, hu] at hk
    cases hmode : n.mode <;> rw [hmode] at hk <;> exact absurd hk (by simp [Request.of?])
  | @sleep c r name kind d goal w g hj =>
    obtain ⟨⟨e, rest, rfl, rfl⟩, hup⟩ := h.stage
    refine h.frame hb ?_ trivial (fun _ hl => mem_locks_modifyLock.mpr hl) hsame
      (h.listed_looked rfl fun i hi => .inl ?_)
    · intro b q other d' goal' hb
      have hb := (sleeperAt_suspend b).symm.trans hb
      split at hb
      · cases hb
        exact ⟨e, rest, rfl, rfl⟩
      · exact h.planned b q other d' goal' hb
    · rcases Lock.has_approach (Lock.has_park.mp hi) with hi | ⟨rfl, hw, hk⟩
      · exact hi
      · exact hup hw hk
  | @grant c r name kind d goal w g hj =>
    obtain ⟨⟨e, rest, rfl, rfl⟩, hup⟩ := h.stage
    have hl : LockName.entity e ∈ s.locks := hw.looked _ rfl
    have hr := h.ref_eq ho (ho.user r .shared rfl)
    refine h.frame hb h.planned ⟨e, rest, rfl, mem_locks_modifyLock.mpr hl⟩
      (fun _ hl => mem_locks_modifyLock.mpr hl) (hkept fun t => ⟨rfl, id⟩)
      (h.listed_looked rfl fun i hi => ?_)
    rcases Lock.has_grant hi with hi | rfl
    · rcases Lock.has_approach hi with hi | ⟨rfl, hw, hk⟩
      · exact .inl hi
      · exact .inl (hup hw hk)
    · exact .inr ⟨e, by rw [← hr]; rfl, rfl⟩
  | @fail c r name kind d goal w g error hj =>
    obtain ⟨⟨e, rest, rfl, rfl⟩, hup⟩ := h.stage
    refine h.frame hb h.planned ⟨_, _, rfl⟩ (fun _ hl => mem_locks_modifyLock.mpr hl)
      (hkept fun t => ⟨rfl, id⟩) (h.listed_looked rfl fun i hi => .inl ?_)
    rcases Lock.has_approach (Lock.has_abandon hi) with hi | ⟨rfl, hw, hk⟩
    · exact hi
    · exact hup hw hk
  | keep hs => exact h.keep ho hs
  | @giveBack c r d e rest w hs =>
    refine h.frame hb h.planned ⟨_, _, rfl⟩ (fun _ hl => mem_locks_modifyLock.mpr hl) hsame
      fun name i hi => .inl ?_
    have hr := h.ref_eq ho (ho.user r .shared rfl)
    -- The lock that has been granted is given back, and all others are in the lock set.
    obtain ⟨hi, hne⟩ := has_release hi
    rcases h.listed name i hi with hlisted | ⟨a, ha, hn⟩
    · exact hlisted
    · cases ha
      exact absurd rfl (hne hn)
  | abort | beginPhased | beginAtOnce =>
    exact h.quiet rfl hb (fun _ => rfl) trivial rfl (hkept fun t => ⟨rfl, by simp [State.isFinal]⟩)
  | grantedSingle =>
    obtain ⟨_, _, hgoal, -⟩ := h.stage
    exact absurd hgoal (by simp)
  | undo | prepare | commit =>
    exact h.quiet rfl hb (ho.sleeperAt_suspend rfl rfl) trivial rfl hsame
  | undone =>
    exact (h.retired .aborted rfl (ho.user _ _ rfl)).quiet rfl hb (fun _ => rfl) trivial rfl
      fun _ => ⟨rfl, id⟩
  | committed =>
    exact (h.retired .committed rfl (ho.user _ _ rfl)).quiet rfl hb (fun _ => rfl) trivial rfl
      fun _ => ⟨rfl, id⟩
  | @removed c r access =>
    have hretired : Recorded (((s.setState r .aborted).retire r).setStatistics
        s.statistics.countRollback) idle :=
      (h.retired .aborted rfl (ho.user _ _ rfl)).quiet rfl
        (h.single.imp fun _ => (begun_retire _ _).trans) (fun _ => rfl) trivial rfl
        fun _ => ⟨rfl, id⟩
    exact hretired.alerted r
  | _ => exact h.quiet rfl hb (fun _ => rfl) trivial rfl hsame

theorem unlocked (h : Recorded s idle) (hr : r ∈ s.transactions) {response : Response} :
    Recorded (s.releaseAll r) (.concluded response) := by
  have hb : (s.releaseAll r).begun = s.begun := by rw [releaseAll_eq]
  refine h.released (r := r) rfl (hb ▸ h.single) (sleeperAt_congr (calls_releaseAll s r).1) trivial
    (fun name hl => mem_locks_releaseAll.mpr hl) ?_ (fun q hq => ?_) fun _ _ => has_releaseAll
  · rw [transactionAt_releaseAll hr, if_pos rfl]
  · rw [transactionAt_releaseAll hr, if_neg hq]
    exact ⟨rfl, rfl⟩

theorem rouse {d d' : Deadline} {goal : Goal} {w : Waiter} {kind : Request} (h : Recorded s idle)
    (hasleep : ∀ {c b : CallId} q other d goal,
      (s.dismiss c).sleeperAt b = some (q, other, d, goal) →
        ∃ e rest, other = .entity e ∧ goal = .plan e rest)
    (hk : s.calls[c]? = some ⟨r, .shared, .waiting name d goal⟩) :
    Recorded ((s.dismiss c).modifyLock name (·.rouse w))
      (.looking c r name kind d' goal true) := by
  refine h.frame h.single (fun _ => hasleep)
    ⟨h.planned c r name d goal (sleeperAt_of_call hk), fun hw => absurd hw (by simp)⟩
    (fun _ hl => mem_locks_modifyLock.mpr hl) (fun _ => ⟨rfl, id⟩) fun other i hi => .inl ?_
  have hi : ((s.modifyLock name (·.rouse w)).lockAt other).Has i := hi
  rcases has_modifyLock hi with ⟨hi, -⟩ | ⟨rfl, hi⟩
  · exact h.listed_of_has rfl hi
  · exact h.listed_of_has rfl hi

theorem start (h : Recorded s idle) (ho : InOrder s idle) (he : e.usesLock = false)
    (hs : Start s e s' p) : Recorded s' p := by
  have hkept : ∀ {f : Transaction → Transaction} {r}, (∀ t : Transaction, t.Keeps (f t)) → ∀ q,
      (s.transactionAt q).Keeps ((s.modifyTransaction r f).transactionAt q) :=
    fun hf q => rel_modifyTransaction (fun t => ⟨rfl, id⟩) hf
  have hsame : ∀ q, (s.transactionAt q).Keeps (s.transactionAt q) := fun q => ⟨rfl, id⟩
  have hasleep : ∀ {c b : CallId}, ∀ q other d goal,
      (s.dismiss c).sleeperAt b = some (q, other, d, goal) →
        ∃ e rest, other = .entity e ∧ goal = .plan e rest := by
    intro c b q other d goal hb
    rw [sleeperAt_dismiss] at hb
    split at hb
    · exact absurd hb (by simp)
    · exact h.planned b q other d goal hb
  cases hs with
  | acquire | upgrade | release => exact absurd he (by simp [Event.usesLock])
  | @begin m n hn =>
    refine h.quiet rfl (Start.single (.begin hn) h.single) (fun _ => rfl) trivial rfl fun q => ?_
    rw [transactionAt_begin ho hn]
    exact ⟨rfl, id⟩
  | register | dropEnded =>
    exact h.quiet rfl h.single (fun _ => rfl) trivial rfl (hkept fun t => ⟨rfl, id⟩)
  | commitInterrupted | rollback | remove =>
    exact h.quiet rfl h.single (fun _ => rfl) trivial rfl
      (hkept fun t => ⟨rfl, by simp [State.isFinal]⟩)
  | @drop r =>
    refine h.quiet rfl h.single (fun _ => rfl) trivial rfl fun q => ?_
    have hdropped : (s.transactionAt q).Keeps
        ((s.modifyTransaction r fun t => { t with isOwned := false }).transactionAt q) :=
      rel_modifyTransaction (R := Transaction.Keeps) (fun t => ⟨rfl, id⟩) fun t => ⟨rfl, id⟩
    exact hdropped.trans (rel_modifyTransaction (R := Transaction.Keeps) (fun t => ⟨rfl, id⟩)
      fun t => ⟨rfl, by simp [State.isFinal]⟩)
  | @interrupt r | @managerInterrupt r =>
    have hmarked :
        Recorded (s.modifyTransaction r fun t => { t with isInterrupted := true }) idle :=
      h.quiet rfl h.single (fun _ => rfl) trivial rfl (hkept fun t => ⟨rfl, id⟩)
    exact hmarked.alerted r
  | @unlockAll r ha =>
    exact h.unlocked (admits_iff.mp ha).1
  | @forget r ha =>
    have hunlocked : Recorded (s.releaseAll r) idle := h.unlocked (admits_iff.mp ha).1
    exact hunlocked.quiet rfl hunlocked.single (fun _ => rfl) trivial rfl fun _ => ⟨rfl, id⟩
  | wake hk hw => exact h.rouse hasleep hk
  | expire hk hd hw => exact h.rouse hasleep hk
  | @expireIdle c r name d goal hk =>
    refine h.frame h.single (fun b q other d' goal' hb => ?_) trivial (fun _ => id) hsame
      fun name i hi => .inl (h.listed_of_has rfl hi)
    rw [sleeperAt_suspend] at hb
    split at hb
    · cases hb
      exact h.planned c r name d goal (sleeperAt_of_call hk)
    · exact h.planned b q other d' goal' hb
  | prepared | notPreparedEnded | committed | notCommittedEnded | rolledBack =>
    exact h.frame h.single (fun _ => hasleep) trivial (fun _ => id) hsame
      fun name i hi => .inl (h.listed_of_has rfl hi)
  | notPrepared | notCommitted =>
    exact h.frame h.single (fun _ => hasleep) trivial (fun _ => id)
      (hkept fun t => ⟨rfl, by simp [State.isFinal]⟩) fun name i hi => .inl (h.listed_of_has rfl hi)
  | _ => exact h.quiet rfl h.single (fun _ => rfl) trivial rfl hsame

theorem new (g : Granularity) (config lockConfig : Config) :
    Recorded (System.new g [config] lockConfig) idle := by
  refine ⟨⟨0, rfl⟩, ?_, trivial, ?_, ?_, ?_⟩
  · intro c r name d goal hc
    exact absurd hc (by simp [sleeperAt, System.new])
  · intro r e he
    rw [transactionAt_new] at he
    exact absurd he (by simp [default])
  · intro name i hi
    rw [lockAt_new] at hi
    exact absurd hi Lock.not_has_default
  · intro r hr
    rw [transactionAt_new]
    rfl

theorem rest {response : Response} (h : Recorded s (.concluded response)) : Recorded s idle :=
  ⟨h.single, h.planned, trivial, h.kept, h.listed, h.final⟩

end Recorded

end System

end Locking
