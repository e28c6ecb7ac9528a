import Locking.Proofs.System.Tethered

/-! The lock set of a transaction and the locks agree.  Whatever is in the lock set, the transaction
has: it owns the lock or waits to upgrade it.  The one exception is a transaction that
has lost a lock by a failed upgrade and is being rolled back: its lock set stays until the last of
its stores has replied. -/

namespace Locking

/-- The transaction whose request has just failed. -/
def Stage.failing? : Stage → Option TransactionRef
  | failed _ r .. => some r
  | _ => none

namespace System

variable {s s' : System} {p p' : Stage} {e : Event} {r q : TransactionRef} {c : CallId}
  {name : LockName} {i : TransactionId} {hs : History}

/-- The transaction is being rolled back by a call that does not have it to itself, which is a
request of it that has failed, or the removal by its manager. -/
def Revoked (s : System) (p : Stage) (r : TransactionRef) : Prop :=
  ∃ access cause, access ≠ .exclusive ∧ s.RollsBack p r access cause

/-- What is in a lock set is had, unless the transaction is about to be rolled back or is being
rolled back by a call that does not have it to itself. -/
structure Backed (s : System) (p : Stage) : Prop where
  held : ∀ r, ∀ e ∈ (s.transactionAt r).lockSet,
    (s.lockAt (.entity e)).Has r.id ∨ p.failing? = some r ∨ s.Revoked p r
  granted : ∀ r e, p.granted? = some (r, e) → (s.lockAt (.entity e)).Has r.id

/-- A request asks for nothing only where its transaction owns the lock. -/
theorem has_of_covered {l : Lock} {mode : LockMode} (h : Request.of? (l.modeOf i) mode = none) :
    l.Has i := by
  by_contra hn
  rw [Lock.modeOf, if_neg fun ho => hn (.inl ho)] at h
  cases mode <;> exact absurd h (by simp [Request.of?])

theorem Advance.revoked (ho : InOrder s p) (ha : Advance s p s' p')
    (hp : ∀ c access cause, p ≠ .undoing c r access cause []) (h : s.Revoked p r) :
    s'.Revoked p' r := by
  obtain ⟨access, cause, hne, h⟩ := h
  refine ⟨access, cause, hne, (ha.rollsBack ho h).resolve_right ?_⟩
  rintro ⟨c, hc⟩
  exact hp c access cause hc

theorem Start.revoked (hst : Start s e s' p) (h : s.Revoked idle r) : s'.Revoked p r := by
  obtain ⟨access, cause, hne, h⟩ := h
  exact ⟨access, cause, hne, hst.rollsBack h⟩

/-- Who is aborting while a request of it fails is being rolled back by another call, and that call
does not have it to itself. -/
theorem Ledger.revoked (h : Ledger s p hs) (hp : p.task? = none)
    (hu : p.user? = some (r, .shared)) (hr : (s.transactionAt r).state = .aborting) :
    s.Revoked p r := by
  obtain ⟨c, task, hc⟩ | ⟨c, task, hc⟩ := (h.entry r).underway .rollback hr
  · obtain ⟨⟨q, access, point⟩, hk, rfl, htask⟩ := taskAt_eq_some hc
    obtain ⟨phase, store, rest⟩ := task
    have hphase := ((h.entry q).calling c phase store rest hc).1
    have hshared := h.inOrder.aside q .shared hu c _ hk rfl
    cases point with
    | rollingBack store rest cause =>
      refine ⟨access, cause, ?_, .inr ⟨c, store, rest, hk⟩⟩
      rintro rfl
      exact absurd hshared (by simp [Access.permits])
    | waiting => exact absurd htask (by simp [Point.task?])
    | preparing | committing =>
      cases htask
      exact absurd (hr.symm.trans hphase) (by simp [Phase.state])
  · exact absurd (hp.symm.trans hc) (by simp)

/-- With one manager a transaction that has anything in its lock set is named by its number. -/
theorem Recorded.eq_of_id (h : Recorded s p) (ho : InOrder s p) {a : EntityId}
    (ha : a ∈ (s.transactionAt q).lockSet) (hr : r ∈ s.transactions) (hid : q.id = r.id) :
    q = r := by
  have hq : q ∈ s.transactions := by
    by_contra hn
    rw [transactionAt_of_not_mem hn] at ha
    exact absurd ha (by simp [default])
  rw [h.ref_eq ho hq, h.ref_eq ho hr, hid]

namespace Backed

/-- No lock set changes, and nobody loses a lock. -/
theorem still (h : Backed s p) (hl : ∀ name i, (s.lockAt name).Has i → (s'.lockAt name).Has i)
    (ht : ∀ q, (s'.transactionAt q).lockSet = (s.transactionAt q).lockSet)
    (hrevoked : ∀ q, s.Revoked p q → s'.Revoked p' q) (hp : p.failing? = none)
    (hg : ∀ q a, p'.granted? = some (q, a) → (s'.lockAt (.entity a)).Has q.id) : Backed s' p' where
  held q a ha := by
    rcases h.held q a (ht q ▸ ha) with hhas | hfailing | hrev
    · exact .inl (hl _ _ hhas)
    · exact absurd (hp.symm.trans hfailing) (by simp)
    · exact .inr (.inr (hrevoked q hrev))
  granted := hg

/-- No lock set changes, nobody loses a lock, and no request has just been granted one. -/
theorem calm (h : Backed s p) (hl : ∀ name i, (s.lockAt name).Has i → (s'.lockAt name).Has i)
    (ht : ∀ q, (s'.transactionAt q).lockSet = (s.transactionAt q).lockSet)
    (hrevoked : ∀ q, s.Revoked p q → s'.Revoked p' q) (hp : p.failing? = none)
    (hg : p'.granted? = none) : Backed s' p' :=
  h.still hl ht hrevoked hp fun _ _ hq => absurd (hg.symm.trans hq) (by simp)

/-- A transaction has released its lock set, or loses a lock because its request has failed. -/
theorem lost (h : Backed s p) (hid : ∀ q, ∀ a ∈ (s.transactionAt q).lockSet, q.id = r.id → q = r)
    (hself : (s'.transactionAt r).lockSet = ∅ ∨ p'.failing? = some r)
    (hl : ∀ name i, i ≠ r.id → (s.lockAt name).Has i → (s'.lockAt name).Has i)
    (ht : ∀ q, q ≠ r → (s'.transactionAt q).lockSet = (s.transactionAt q).lockSet)
    (hrevoked : ∀ q, q ≠ r → s.Revoked p q → s'.Revoked p' q)
    (hp : p.failing? = none) (hg : p'.granted? = none) : Backed s' p' where
  held q a ha := by
    by_cases hq : q = r
    · subst hq
      refine .inr (.inl (hself.resolve_left fun hempty => ?_))
      rw [hempty] at ha
      exact absurd ha (by simp)
    · rw [ht q hq] at ha
      rcases h.held q a ha with hhas | hfailing | hrev
      · exact .inl (hl _ _ (fun hqr => hq (hid q a ha hqr)) hhas)
      · exact absurd (hp.symm.trans hfailing) (by simp)
      · exact .inr (.inr (hrevoked q hq hrev))
  granted q a hq := absurd (hg.symm.trans hq) (by simp)

/-- A lock that has been granted enters the lock set. -/
theorem keep {d : Deadline} {a : EntityId} {rest : List Need} {w : Bool} {statistics : Statistics}
    (h : Backed s (.granted c r d (.plan a rest) w))
    (hrevoked : ∀ q, s.Revoked (.granted c r d (.plan a rest) w) q →
      (s.modifyTransaction r fun t => { t with lockSet := t.lockSet.insert a }).Revoked
        (.taking c r d rest) q) :
    Backed ((s.modifyTransaction r fun t =>
      { t with lockSet := t.lockSet.insert a }).setStatistics statistics) (.taking c r d rest) where
  held q b hb := by
    have hset : q = r ∧ b = a ∨ b ∈ (s.transactionAt q).lockSet := by
      by_cases hq : q = r
      · refine (rel_modifyTransaction (R := fun t t' => ∀ b ∈ t'.lockSet, b = a ∨ b ∈ t.lockSet)
          (fun _ _ => .inr) (fun t b hb => ?_) b hb).imp (fun hba => ⟨hq, hba⟩) id
        rwa [Std.ExtTreeSet.mem_insert, Std.LawfulEqOrd.compare_eq_iff_eq, eq_comm] at hb
      · refine .inr ?_
        have hb : b ∈ ((s.modifyTransaction r fun t =>
          { t with lockSet := t.lockSet.insert a }).transactionAt q).lockSet := hb
        rwa [transactionAt_modifyTransaction_ne hq] at hb
    rcases hset with ⟨rfl, rfl⟩ | hb
    · exact .inl (h.granted q b rfl)
    · rcases h.held q b hb with hhas | hfailing | hrev
      · exact .inl hhas
      · exact absurd hfailing (by simp [Stage.failing?])
      · exact .inr (.inr (hrevoked q hrev))
  granted q b hq := absurd hq (by simp [Stage.granted?])

theorem retired {access : Access} (state : State) (h : Backed s p) (hr : Recorded s p)
    (ho : InOrder s p) (ha : Advance s p s' p') (hu : p.user? = some (r, access))
    (hp : p.failing? = none) (hg : p'.granted? = none)
    (ht : ∀ q, s'.transactionAt q = ((s.setState r state).retire r).transactionAt q)
    (hl : ∀ name i, (((s.setState r state).retire r).lockAt name).Has i → (s'.lockAt name).Has i) :
    Backed s' p' := by
  have hmem : r ∈ s.transactions := ho.user r access hu
  have hmem' : r ∈ (s.setState r state).transactions := mem_transactions_modifyTransaction.mpr hmem
  refine h.lost (fun q a ha => hr.eq_of_id ho ha hmem) (.inl ?_)
    (fun name i hi hhas => hl name i (has_releaseAll_of_has (s := s.setState r state) hhas hi))
    (fun q hq => ?_) (fun q hq => ha.revoked ho ?_) hp hg
  · rw [ht, transactionAt_retire hmem', if_pos rfl]
  · rw [ht, transactionAt_retire hmem', if_neg hq, setState, transactionAt_modifyTransaction_ne hq]
  · rintro c access' cause rfl
    cases hu
    exact hq rfl

theorem failed {a : EntityId} {rest : List Need} {error : Error}
    (h : Backed s (.failed c r (.plan a rest) error))
    (hr : Recorded s (.failed c r (.plan a rest) error))
    (hl : Ledger s (.failed c r (.plan a rest) error) hs)
    (ha : Advance s (.failed c r (.plan a rest) error) s' p') : Backed s' p' := by
  have hrevoked : ∀ q, s.Revoked (.failed c r (.plan a rest) error) q → s'.Revoked p' q :=
    fun q => ha.revoked hl.inOrder (by simp)
  cases ha with
  | abort hs =>
    refine ⟨fun q b hb => ?_, by simp [Stage.granted?]⟩
    have hset : ((s.setState r .aborting).transactionAt q).lockSet = (s.transactionAt q).lockSet :=
      lockSet_modifyTransaction fun _ => rfl
    rcases h.held q b (hset ▸ hb) with hhas | hfailing | hrev
    · exact .inl hhas
    · cases hfailing
      exact .inr (.inr ⟨.shared, _, by simp, .inl ⟨_, _, rfl⟩⟩)
    · exact .inr (.inr (hrevoked q hrev))
  | abortEnded hs =>
    refine ⟨fun q b hb => ?_, by simp [Stage.granted?]⟩
    have hb : b ∈ (s.transactionAt q).lockSet := hb
    rcases h.held q b hb with hhas | hfailing | hrev
    · exact .inl hhas
    · cases hfailing
      -- Its locks have been released, or another call is about to release them.
      have haborting : (s.transactionAt r).state = .aborting := by
        have hended : (s.transactionAt r).state.isFinal ≠ true := by
          intro hf
          rw [hr.final r hf] at hb
          exact absurd hb (by simp)
        cases hstate : (s.transactionAt r).state <;>
          simp [hstate, State.canRollBack, State.isFinal] at hs hended ⊢
      exact .inr (.inr (hrevoked r (hl.revoked rfl rfl haborting)))
    · exact .inr (.inr (hrevoked q hrev))

theorem advance (h : Backed s p) (hr : Recorded s p) (hw : Waiting s p) (hl : Ledger s p hs)
    (ha : Advance s p s' p') : Backed s' p' := by
  have ho := hl.inOrder
  have hrevoked : (∀ c r access cause, p ≠ .undoing c r access cause []) →
      ∀ q, s.Revoked p q → s'.Revoked p' q := fun hp q =>
    ha.revoked ho fun c access cause => hp c q access cause
  have hid : ∀ {r access}, p.user? = some (r, access) → ∀ q, ∀ a ∈ (s.transactionAt q).lockSet,
      q.id = r.id → q = r := fun hu q a ha => hr.eq_of_id ho ha (ho.user _ _ hu)
  have hadd : ∀ {other} name i, (s.lockAt name).Has i → ((s.addLock other).lockAt name).Has i :=
    fun name i hi => by rwa [lockAt_addLock]
  cases ha with
  | refuse => exact h.calm hadd (fun _ => rfl) (hrevoked (by simp)) rfl rfl
  | @covered c r d n rest hi hk =>
    refine h.still hadd (fun _ => rfl) (hrevoked (by simp)) rfl fun q a hq => ?_
    cases hq
    rw [lockAt_addLock]
    exact has_of_covered hk
  | ask =>
    exact h.calm hadd (fun _ => lockSet_modifyTransaction fun _ => rfl) (hrevoked (by simp)) rfl rfl
  | sleep =>
    exact h.calm (fun name i hi => has_modifyLock_of_has hi Lock.Has.approach) (fun _ => rfl)
      (hrevoked (by simp)) rfl rfl
  | @grant c r name kind d goal w g hj =>
    have hgrantable := (Attempt.judge_eq_granted_iff.mp hj).2.1
    refine h.still
      (fun other i hi => has_modifyLock_of_has hi fun hi => hi.approach.grant hgrantable)
      (fun _ => lockSet_modifyTransaction fun _ => rfl) (hrevoked (by simp)) rfl fun q a hq => ?_
    obtain ⟨⟨a, rest, rfl, rfl⟩, -⟩ := hr.stage
    cases hq
    show ((s.modifyLock (.entity a) fun l => (l.approach r.id kind w).grant r.id kind).lockAt
      (.entity a)).Has r.id
    rw [lockAt_modifyLock_self (hw.looked _ rfl)]
    exact Lock.has_grant_self
  | @fail c r name kind d goal w g error hj =>
    refine h.lost (hid rfl) (.inr rfl) (fun other i hi hhas => ?_) (fun q _ => ?_)
      (fun q _ => hrevoked (by simp) q) rfl rfl
    · exact has_modifyLock_of_has hhas fun hi' => hi'.approach.abandon hi
    · exact lockSet_modifyTransaction fun _ => rfl
  | keep hs => exact h.keep (hrevoked (by simp))
  | giveBack =>
    refine h.lost (hid rfl) (.inr rfl) (fun other i hi hhas => ?_) (fun _ _ => rfl)
      (fun q _ => hrevoked (by simp) q) rfl rfl
    exact has_modifyLock_of_has hhas fun hi' => Lock.has_release.mpr ⟨hi, hi'⟩
  | abort hs => exact h.failed hr hl (.abort hs)
  | abortEnded hs => exact h.failed hr hl (.abortEnded hs)
  | failedSingle =>
    obtain ⟨_, _, hgoal⟩ := hr.stage
    exact absurd hgoal (by simp)
  | undone hc =>
    exact h.retired .aborted hr ho (.undone hc) rfl rfl rfl (fun _ => rfl) fun _ _ => id
  | committed =>
    exact h.retired .committed hr ho .committed rfl rfl rfl (fun _ => rfl) fun _ _ => id
  | removed =>
    refine h.retired .aborted hr ho .removed rfl rfl rfl (fun q => ?_) fun name i hi => ?_
    · rw [transactionAt_alert]
      rfl
    · exact has_alert.mpr hi
  | beginPhased | beginAtOnce =>
    exact h.calm (fun _ _ => id) (fun _ => lockSet_modifyTransaction fun _ => rfl)
      (hrevoked (by simp)) rfl rfl
  | _ => exact h.calm (fun _ _ => id) (fun _ => rfl) (hrevoked (by simp)) rfl rfl

theorem unlocked {response : Response} (h : Backed s idle) (hr : Recorded s idle)
    (ho : InOrder s idle) (hmem : r ∈ s.transactions)
    (hrevoked : ∀ q, s.Revoked idle q → (s.releaseAll r).Revoked (.concluded response) q) :
    Backed (s.releaseAll r) (.concluded response) := by
  refine h.lost (fun q a ha => hr.eq_of_id ho ha hmem) (.inl ?_)
    (fun name i hi hhas => has_releaseAll_of_has hhas hi) (fun q hq => ?_) (fun q _ => hrevoked q)
    rfl rfl
  · rw [transactionAt_releaseAll hmem, if_pos rfl]
  · rw [transactionAt_releaseAll hmem, if_neg hq]

theorem start (h : Backed s idle) (hr : Recorded s idle) (ho : InOrder s idle)
    (he : e.usesLock = false) (hst : Start s e s' p) : Backed s' p := by
  have hrevoked : ∀ q, s.Revoked idle q → s'.Revoked p q := fun q => hst.revoked
  cases hst with
  | acquire | upgrade | release => exact absurd he (by simp [Event.usesLock])
  | begin hn =>
    exact h.calm (fun _ _ => id) (fun q => by rw [transactionAt_begin ho hn]) hrevoked rfl rfl
  | register | dropEnded | commitInterrupted | rollback | remove | notPrepared | notCommitted =>
    exact h.calm (fun _ _ => id) (fun _ => lockSet_modifyTransaction fun _ => rfl) hrevoked rfl rfl
  | @drop r =>
    refine h.calm (fun _ _ => id) (fun q => ?_) hrevoked rfl rfl
    have hdropped : ((s.modifyTransaction r fun t => { t with isOwned := false }).transactionAt
        q).lockSet = (s.transactionAt q).lockSet := lockSet_modifyTransaction fun _ => rfl
    rw [← hdropped]
    exact lockSet_modifyTransaction fun _ => rfl
  | interrupt | managerInterrupt =>
    refine h.calm (fun name i hi => ?_) (fun q => ?_) hrevoked rfl rfl
    · exact has_alert.mpr hi
    · rw [System.interrupt, transactionAt_alert]
      exact lockSet_modifyTransaction fun _ => rfl
  | unlockAll ha => exact h.unlocked hr ho (admits_iff.mp ha).1 hrevoked
  | forget ha =>
    have hunlocked := h.unlocked hr ho (admits_iff.mp ha).1 hrevoked
    exact ⟨hunlocked.held, hunlocked.granted⟩
  | wake | expire =>
    exact h.calm (fun _ _ hi => has_modifyLock_of_has hi id) (fun _ => rfl) hrevoked rfl rfl
  | _ => exact h.calm (fun _ _ => id) (fun _ => rfl) hrevoked rfl rfl

theorem rest {response : Response} (h : Backed s (.concluded response)) : Backed s idle where
  held r a ha := by
    rcases h.held r a ha with hhas | hfailing | ⟨access, cause, hne, hrolls⟩
    · exact .inl hhas
    · exact absurd hfailing (by simp [Stage.failing?])
    · exact .inr (.inr ⟨access, cause, hne, hrolls.imp (by simp) id⟩)
  granted _ _ hq := absurd hq (by simp [Stage.granted?])

theorem new (g : Granularity) (configs : List Config) (lockConfig : Config) :
    Backed (System.new g configs lockConfig) idle where
  held r a ha := by
    rw [transactionAt_new] at ha
    exact absurd ha (by simp [default])
  granted _ _ hq := absurd hq (by simp [Stage.granted?])

/-- What is known of the lock sets and the locks of one manager, however many requests a
transaction makes at a time. -/
theorem invariant : Invariant (fun _ e => e.usesLock = false) fun s p =>
    (∃ hs, Ledger s p hs) ∧ Waiting s p ∧ Recorded s p ∧ Backed s p where
  inOrder h := Ledger.invariant.inOrder h.1
  rest h := ⟨Ledger.invariant.rest h.1, h.2.1.rest, h.2.2.1.rest, h.2.2.2.rest⟩
  start := by
    rintro s e s' p he ⟨hl, hw, hr, hb⟩ hst
    have ho := Ledger.invariant.inOrder hl
    exact ⟨Ledger.invariant.start trivial hl hst, hw.start ho hst, hr.start ho he hst,
      hb.start hr ho he hst⟩
  advance := by
    rintro s p s' p' ⟨⟨hs, hl⟩, hw, hr, hb⟩ ha
    exact ⟨Ledger.invariant.advance ⟨hs, hl⟩ ha, hw.advance hl.inOrder ha,
      hr.advance hl.inOrder hw ha, hb.advance hr hw hl ha⟩

end Backed

/-- Every lock request that is made for a transaction is asleep.  Other calls may stand anywhere. -/
def Resting (s : System) (r : TransactionRef) : Prop :=
  ∀ (c : CallId) (k : Call), s.calls[c]? = some k → k.transaction = r →
    k.access = .shared → k.point.isAsleep = true

instance (s : System) (r : TransactionRef) : Decidable (s.Resting r) :=
  decidable_of_iff (∀ entry ∈ s.calls.toList, entry.2.transaction = r →
    entry.2.access = .shared → entry.2.point.isAsleep = true) <| by
    simp only [Prod.forall, Std.ExtTreeMap.mem_toList_iff_getElem?_eq_some]
    rfl

/-- The manager of a transaction removes it, and is calling its stores. -/
def BeingRemoved (s : System) (r : TransactionRef) : Prop :=
  ∃ (c : CallId) (store : Store) (rest : List Store) (cause : Cause),
    s.calls[c]? = some ⟨r, .unowned, .rollingBack store rest cause⟩

/-- If all its requests are asleep, only the removal of a transaction can revoke its locks. -/
theorem Resting.beingRemoved (h : s.Resting r) (hr : s.Revoked idle r) : s.BeingRemoved r := by
  obtain ⟨access, cause, hne, ⟨c, stores, hp⟩ | ⟨c, store, rest, hk⟩⟩ := hr
  · exact absurd hp (by simp)
  · cases access with
    | unowned => exact ⟨c, store, rest, cause, hk⟩
    | shared => exact absurd (h c _ hk rfl rfl) (by simp [Point.isAsleep])
    | exclusive => exact absurd rfl hne

/-- The lock set and the locks agree: in any run of one manager in which locks are used through
transactions only, with any number of requests of a transaction at a time, whatever a transaction
owns or waits to upgrade is in its lock set.  What is in the lock set it owns or waits to upgrade,
unless a call that does not have it to itself is calling its stores to roll it back.  So whenever
all requests of the transaction are asleep, notified or not, its lock set is exactly what it owns or
waits to upgrade, except that its manager may be removing it: until the stores have replied, a lock
that was lost by a failed upgrade is in the lock set still. -/
theorem lock_set_agrees (g : Granularity) (config lockConfig : Config) (events : List Event)
    (ho : Obeys (fun _ e => e.usesLock = false) (System.new g [config] lockConfig) events) :
    let s := (System.new g [config] lockConfig).run events
    ∀ i e, ((s.lockAt (.entity e)).Has i → e ∈ (s.transactionAt ⟨0, i⟩).lockedEntities) ∧
      (e ∈ (s.transactionAt ⟨0, i⟩).lockedEntities →
        (s.lockAt (.entity e)).Has i ∨ s.Revoked idle ⟨0, i⟩) ∧
      (s.Resting ⟨0, i⟩ → ¬ s.BeingRemoved ⟨0, i⟩ →
        (e ∈ (s.transactionAt ⟨0, i⟩).lockedEntities ↔
          i ∈ (s.lockAt (.entity e)).owners ∨ i ∈ (s.lockAt (.entity e)).upgraders)) := by
  intro s i e
  obtain ⟨-, -, hr, hb⟩ : (∃ hs, Ledger s idle hs) ∧ Waiting s idle ∧ Recorded s idle ∧
      Backed s idle :=
    Backed.invariant.run ⟨⟨[], .new g [config] lockConfig⟩, .new g [config] lockConfig,
      .new g config lockConfig, .new g [config] lockConfig⟩ ho
  have hlisted : (s.lockAt (.entity e)).Has i →
      e ∈ (s.transactionAt ⟨0, i⟩).lockedEntities := by
    intro hi
    obtain ⟨a, ha, hea⟩ := Transaction.mem_lockedNames.mp (hr.listed_of_has rfl hi)
    cases hea
    exact Transaction.mem_lockedEntities.mpr ha
  have hbacked : e ∈ (s.transactionAt ⟨0, i⟩).lockedEntities →
      (s.lockAt (.entity e)).Has i ∨ s.Revoked idle ⟨0, i⟩ := fun he =>
    (hb.held ⟨0, i⟩ e (Transaction.mem_lockedEntities.mp he)).imp id
      fun h => h.resolve_left (by simp [Stage.failing?])
  exact ⟨hlisted, hbacked, fun hrest hremoved =>
    ⟨fun he => (hbacked he).resolve_right fun hrev => hremoved (hrest.beingRemoved hrev), hlisted⟩⟩

/-- A transaction sleeps with two requests, one of which has given up its hold of a lock for an
upgrade.  The lock is in its lock set all the same, and the other lock is not. -/
theorem lock_set_of_upgrader :
    let events : List Event := [.begin 0, .begin 0,
      .lock ⟨0, 1⟩ ⟨["a"]⟩ .shared, .lock ⟨0, 2⟩ ⟨["a"]⟩ .shared,
      .lock ⟨0, 2⟩ ⟨["b"]⟩ .exclusive, .lock ⟨0, 1⟩ ⟨["a"]⟩ .exclusive,
      .lock ⟨0, 1⟩ ⟨["b"]⟩ .shared]
    let fresh := System.new .hierarchical [{}] {}
    let s := fresh.run events
    Obeys (fun _ e => e.usesLock = false) fresh events ∧ s.Resting ⟨0, 1⟩ ∧ s.calls.size = 2 ∧
      1 ∉ (s.lockAt (.entity ⟨["a"]⟩)).owners ∧
      ⟨["a"]⟩ ∈ (s.transactionAt ⟨0, 1⟩).lockedEntities ∧
      ⟨["b"]⟩ ∉ (s.transactionAt ⟨0, 1⟩).lockedEntities := by
  intro events fresh s
  have ho : Obeys (fun _ e => e.usesLock = false) fresh events := by decide +kernel
  have hrest : s.Resting ⟨0, 1⟩ := by decide +kernel
  have hasleep : ∀ entry ∈ s.calls.toList, entry.2.access = .shared := by decide +kernel
  have hremoved : ¬ s.BeingRemoved ⟨0, 1⟩ := by
    rintro ⟨c, store, rest, cause, hk⟩
    exact absurd (hasleep _ (Std.ExtTreeMap.mem_toList_iff_getElem?_eq_some.mpr hk)) (by simp)
  have hagrees := fun e =>
    (lock_set_agrees .hierarchical {} {} events ho 1 e).2.2 hrest hremoved
  have howners : 1 ∉ (s.lockAt (.entity ⟨["a"]⟩)).owners := by decide +kernel
  refine ⟨ho, hrest, by decide +kernel, howners, ?_, ?_⟩
  · rw [hagrees]
    exact .inr (by decide +kernel)
  · rw [hagrees]
    decide +kernel

/-- A transaction is removed while it waits for an upgrade, and its request fails before its store
has replied.  No request is in progress any more, and its lock set has what it has lost. -/
theorem lock_set_of_removed :
    let events : List Event := [.begin 0, .begin 0, .register ⟨0, 1⟩ ⟨0, "rows"⟩,
      .lock ⟨0, 1⟩ ⟨["a"]⟩ .shared, .lock ⟨0, 2⟩ ⟨["a"]⟩ .shared,
      .lock ⟨0, 1⟩ ⟨["a"]⟩ .exclusive, .remove ⟨0, 1⟩, .rollback ⟨0, 2⟩, .wake 0]
    let fresh := System.new .hierarchical [{}] {}
    let s := fresh.run events
    Obeys (fun _ e => e.usesLock = false) fresh events ∧
      (∀ entry ∈ s.calls.toList, entry.2.access ≠ .shared) ∧
      ⟨["a"]⟩ ∈ (s.transactionAt ⟨0, 1⟩).lockedEntities ∧
      1 ∉ (s.lockAt (.entity ⟨["a"]⟩)).owners ∧ 1 ∉ (s.lockAt (.entity ⟨["a"]⟩)).upgraders := by
  decide +kernel

end System

end Locking
