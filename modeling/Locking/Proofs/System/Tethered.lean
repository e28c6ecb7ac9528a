import Locking.Proofs.System.Deadlock

/-! How a transaction that is interrupted finds the request that it has asleep.  A transaction knows
one lock on which it waits.  As long as it makes one request at a time, that is the lock on which
the request sleeps, and whoever interrupts the transaction or removes it wakes the request.  With
two requests asleep it knows only the lock of the later one, and the other request sleeps on. -/

namespace Locking

namespace Lock

variable {l l' l'' : Lock} {i : TransactionId} {kind : Request} {w : Bool}

/-- No request falls asleep, and none is taken for not notified that was notified before. -/
def Calms (l l' : Lock) : Prop :=
  ∀ w ∈ l'.waiters, ∃ v ∈ l.waiters,
    v.transaction = w.transaction ∧ (w.isNotified = false → v.isNotified = false)

namespace Calms

theorem of_waiters (h : ∀ w ∈ l'.waiters, w ∈ l.waiters) : l.Calms l' :=
  fun w hw => ⟨w, h w hw, rfl, id⟩

theorem refl (l : Lock) : l.Calms l := of_waiters fun _ => id

theorem trans (h : l.Calms l') (h' : l'.Calms l'') : l.Calms l'' := by
  intro w hw
  obtain ⟨v, hv, ht, hn⟩ := h' w hw
  obtain ⟨u, hu, ht', hn'⟩ := h v hv
  exact ⟨u, hu, ht'.trans ht, fun h => hn' (hn h)⟩

theorem notify (l : Lock) : l.Calms l.notify := by
  intro w hw
  obtain ⟨v, hv, rfl⟩ := List.mem_map.mp hw
  exact ⟨v, hv, rfl, fun h => absurd h (by simp)⟩

theorem release (l : Lock) (i : TransactionId) : l.Calms (l.release i) :=
  notify { l.disown i with upgraders := l.upgraders.erase i }

theorem lenient : Lenient Calms := ⟨refl, trans, notify, release⟩

theorem approach (l : Lock) (i : TransactionId) (kind : Request) (w : Bool) :
    l.Calms (l.approach i kind w) := of_waiters fun v hv => by rwa [waiters_approach] at hv

theorem grant (l : Lock) (i : TransactionId) (kind : Request) : l.Calms (l.grant i kind) :=
  of_waiters fun v hv => by rwa [waiters_grant] at hv

theorem abandon (l : Lock) (i : TransactionId) : l.Calms (l.abandon i) := by
  unfold Lock.abandon
  split
  · exact notify { l with upgraders := l.upgraders.erase i }
  · exact refl l

end Calms

end Lock

/-- What a transaction knows of its waiting and of being interrupted. -/
def Transaction.tether (t : Transaction) : Option LockName × Bool := (t.waitingOn, t.isInterrupted)

namespace System

variable {s s' : System} {p p' : Stage} {e : Event} {r q : TransactionRef} {c : CallId}
  {name other : LockName} {hs : History}

/-! ### Rollbacks -/

/-- A call rolls the transaction back: it goes on with that, or waits for a store to reply. -/
def RollsBack (s : System) (p : Stage) (r : TransactionRef) (access : Access) (cause : Cause) :
    Prop :=
  (∃ c stores, p = .undoing c r access cause stores) ∨
    ∃ c : CallId, ∃ store rest, s.calls[c]? = some ⟨r, access, .rollingBack store rest cause⟩

/-- A rollback goes on until it has come to its end. -/
theorem Advance.rollsBack {access : Access} {cause : Cause} (ho : InOrder s p)
    (ha : Advance s p s' p') (h : s.RollsBack p r access cause) :
    s'.RollsBack p' r access cause ∨ ∃ c, p = .undoing c r access cause [] := by
  rcases h with ⟨c, stores, rfl⟩ | ⟨c, store, rest, hk⟩
  · cases ha with
    | @undo c r access cause store rest =>
      exact .inl (.inr ⟨c, store, rest, by rw [calls_suspend, if_pos rfl]⟩)
    | undone | removed => exact .inr ⟨_, rfl⟩
  · refine .inl (.inr ⟨c, store, rest, ?_⟩)
    cases ha.keeps with
    | nothing hc => rw [hc, hk]
    | @call b q access' point hb _ _ hins =>
      have hne : b ≠ c := by
        rintro rfl
        rw [(ho.going b hb).1] at hk
        exact absurd hk (by simp)
      rw [hins, Std.ExtTreeMap.getElem?_insert, if_neg (by simpa using hne), hk]

theorem Start.rollsBack {access : Access} {cause : Cause} (hst : Start s e s' p)
    (h : s.RollsBack idle r access cause) : s'.RollsBack p r access cause := by
  obtain ⟨c, stores, hp⟩ | ⟨c, store, rest, hk⟩ := h
  · exact absurd hp (by simp)
  have hkept : ∀ {b : CallId} {k : Call}, s.calls[b]? = some k →
      (∀ store rest cause, k.point ≠ .rollingBack store rest cause) →
        (s.dismiss b).calls[c]? = some ⟨r, access, .rollingBack store rest cause⟩ := by
    intro b k hb hpoint
    rw [calls_dismiss, if_neg, hk]
    rintro rfl
    rw [hk] at hb
    obtain rfl := Option.some.inj hb
    exact hpoint _ _ _ rfl
  cases hst with
  | wake hb | expire hb | prepared hb | notPrepared hb | notPreparedEnded hb | committed hb
  | notCommitted hb | notCommittedEnded hb => exact .inr ⟨c, store, rest, hkept hb (by simp)⟩
  | @expireIdle b _ _ _ _ hb =>
    refine .inr ⟨c, store, rest, ?_⟩
    rw [calls_suspend, if_neg, hk]
    rintro rfl
    rw [hk] at hb
    exact absurd hb (by simp)
  | @rolledBack b q _ _ _ _ _ _ hb =>
    by_cases hcb : c = b
    · subst hcb
      rw [hk] at hb
      cases hb
      exact .inl ⟨c, rest, rfl⟩
    · exact .inr ⟨c, store, rest, (calls_dismiss.trans (if_neg hcb)).trans hk⟩
  | interrupt | managerInterrupt =>
    exact .inr ⟨c, store, rest, by rw [System.interrupt, (calls_alert _ _).1]; exact hk⟩
  | unlockAll => exact .inr ⟨c, store, rest, by rw [(calls_releaseAll _ _).1]; exact hk⟩
  | forget =>
    exact .inr ⟨c, store, rest, by
      rw [forget_eq]; exact (congrArg (·[c]?) (calls_releaseAll _ _).1).trans hk⟩
  | _ => exact .inr ⟨c, store, rest, hk⟩

/-- The transaction is being removed by its manager, which wakes its request when it is done. -/
def Removing (s : System) (p : Stage) (r : TransactionRef) : Prop :=
  (∃ c access stores, p = .undoing c r access .removal stores) ∨
    ∃ c : CallId, ∃ access store rest,
      s.calls[c]? = some ⟨r, access, .rollingBack store rest .removal⟩

theorem removing_iff : s.Removing p r ↔ ∃ access, s.RollsBack p r access .removal := by
  constructor
  · rintro (⟨c, access, stores, hp⟩ | ⟨c, access, store, rest, hk⟩)
    · exact ⟨access, .inl ⟨c, stores, hp⟩⟩
    · exact ⟨access, .inr ⟨c, store, rest, hk⟩⟩
  · rintro ⟨access, ⟨c, stores, hp⟩ | ⟨c, store, rest, hk⟩⟩
    · exact .inl ⟨c, access, stores, hp⟩
    · exact .inr ⟨c, access, store, rest, hk⟩

theorem Advance.removing (ho : InOrder s p) (ha : Advance s p s' p') (h : s.Removing p r) :
    s'.Removing p' r ∨ ∃ c access, p = .undoing c r access .removal [] := by
  obtain ⟨access, h⟩ := removing_iff.mp h
  rcases ha.rollsBack ho h with h | ⟨c, hp⟩
  · exact .inl (removing_iff.mpr ⟨access, h⟩)
  · exact .inr ⟨c, access, hp⟩

theorem Start.removing (hst : Start s e s' p) (h : s.Removing idle r) : s'.Removing p r :=
  removing_iff.mpr ((removing_iff.mp h).imp fun _ => hst.rollsBack)

/-! ### The lock that a transaction knows -/

/-- A transaction with a request asleep knows on which lock, and if it was interrupted after the lock
was last notified, it is being removed. -/
structure TetheredAt (i : TransactionId) (s : System) (p : Stage) : Prop where
  slot : ∀ name, ∀ w ∈ (s.lockAt name).waiters, w.transaction = i →
    (s.transactionAt ⟨0, i⟩).waitingOn = some name
  looking : ∀ c name kind d goal w, p = .looking c ⟨0, i⟩ name kind d goal w →
    (s.transactionAt ⟨0, i⟩).waitingOn = some name
  called : ∀ name, ∀ w ∈ (s.lockAt name).waiters, w.transaction = i → w.isNotified = false →
    (s.transactionAt ⟨0, i⟩).isInterrupted = true → s.Removing p ⟨0, i⟩

namespace TetheredAt

variable {i : TransactionId}

/-- No request falls asleep, and the transaction, if it has one, knows as much as before. -/
theorem frame (h : TetheredAt i s p) (hl : ∀ name, (s.lockAt name).Calms (s'.lockAt name))
    (ht : ∀ name, ∀ v ∈ (s.lockAt name).waiters, v.transaction = i →
      (s'.transactionAt ⟨0, i⟩).tether = (s.transactionAt ⟨0, i⟩).tether)
    (hlook : ∀ c name kind d goal w, p' = .looking c ⟨0, i⟩ name kind d goal w →
      (s'.transactionAt ⟨0, i⟩).waitingOn = some name)
    (hr : s.Removing p ⟨0, i⟩ → s'.Removing p' ⟨0, i⟩) : TetheredAt i s' p' where
  slot name w hw hwi := by
    obtain ⟨v, hv, hid, -⟩ := hl name w hw
    have hvi := hid.trans hwi
    exact (congrArg Prod.fst (ht name v hv hvi)).trans (h.slot name v hv hvi)
  looking := hlook
  called name w hw hwi hn hi := by
    obtain ⟨v, hv, hid, hnv⟩ := hl name w hw
    have hvi := hid.trans hwi
    have hi := (congrArg Prod.snd (ht name v hv hvi)).symm.trans hi
    exact hr (h.called name v hv hvi (hnv hn) hi)

theorem still (h : TetheredAt i s p) (hl : ∀ name, (s.lockAt name).Calms (s'.lockAt name))
    (ht : (s'.transactionAt ⟨0, i⟩).tether = (s.transactionAt ⟨0, i⟩).tether)
    (hp : p'.lock? = none) (hr : s.Removing p ⟨0, i⟩ → s'.Removing p' ⟨0, i⟩) :
    TetheredAt i s' p' := by
  refine h.frame hl (fun _ _ _ _ => ht) ?_ hr
  rintro c name kind d goal w rfl
  exact absurd hp (by simp [Stage.lock?])

/-- To alert a transaction is to notify the lock on which its request sleeps. -/
theorem isNotified_of_alert (h : ∀ name, ∀ w ∈ (s.lockAt name).waiters, w.transaction = i →
      (s.transactionAt ⟨0, i⟩).waitingOn = some name) {w : Waiter} (hwi : w.transaction = i)
    (hw : w ∈ ((s.alert ⟨0, i⟩).lockAt name).waiters) : w.isNotified = true := by
  obtain ⟨v, hv, hid, -⟩ := Lock.Calms.lenient.alert s ⟨0, i⟩ name w hw
  have halert : s.alert ⟨0, i⟩ = s.modifyLock name Lock.notify := by
    unfold alert
    rw [h name v hv (hid.trans hwi)]
  rw [halert, lockAt_modifyLock_self (mem_locks_of_waiter hv)] at hw
  exact Lock.isNotified_of_notify hw

/-- Once a transaction has been alerted, nothing needs to be known of its own requests. -/
theorem alerted {response : Response} (h : ∀ name, ∀ w ∈ (s.lockAt name).waiters,
      w.transaction = i → (s.transactionAt ⟨0, i⟩).waitingOn = some name)
    (hr : ⟨0, i⟩ ≠ r → ∀ name, ∀ w ∈ (s.lockAt name).waiters, w.transaction = i →
      w.isNotified = false → (s.transactionAt ⟨0, i⟩).isInterrupted = true →
        s.Removing idle ⟨0, i⟩) : TetheredAt i (s.alert r) (.concluded response) where
  slot name w hw hwi := by
    obtain ⟨v, hv, hid, -⟩ := Lock.Calms.lenient.alert s r name w hw
    rw [transactionAt_alert]
    exact h name v hv (hid.trans hwi)
  looking := by simp
  called name w hw hwi hn hi := by
    by_cases hir : ⟨0, i⟩ = r
    · subst hir
      exact absurd (isNotified_of_alert h hwi hw) (by simp [hn])
    · obtain ⟨v, hv, hid, hnv⟩ := Lock.Calms.lenient.alert s r name w hw
      rw [transactionAt_alert] at hi
      obtain ⟨c, access, stores, hp⟩ | ⟨c, access, store, rest, hk⟩ :=
        hr hir name v hv (hid.trans hwi) (hnv hn) hi
      · exact absurd hp (by simp)
      · exact .inr ⟨c, access, store, rest, by rw [(calls_alert _ _).1, hk]⟩

theorem tether_modifyTransaction {f : Transaction → Transaction}
    (hf : ∀ t : Transaction, (f t).tether = t.tether) :
    ((s.modifyTransaction r f).transactionAt q).tether = (s.transactionAt q).tether :=
  view_modifyTransaction Transaction.tether hf

theorem tether_retire (state : State) : (((s.setState r state).retire r).transactionAt q).tether =
    (s.transactionAt q).tether :=
  (view_retire (s := s.setState r state) Transaction.tether (fun _ => rfl) fun _ => rfl).trans
    (tether_modifyTransaction fun _ => rfl)

/-- What a request notes about its own transaction matters to no request that is asleep. -/
theorem tether_setWaitingOn {noted : Option LockName}
    (hawake : r = ⟨0, i⟩ → ∀ name, ∀ v ∈ (s.lockAt name).waiters, v.transaction ≠ i)
    (name : LockName) (v : Waiter) (hv : v ∈ (s.lockAt name).waiters) (hvi : v.transaction = i) :
    ((s.setWaitingOn r noted).transactionAt ⟨0, i⟩).tether = (s.transactionAt ⟨0, i⟩).tether := by
  have hne : ⟨0, i⟩ ≠ r := fun hir => hawake hir.symm name v hv hvi
  exact congrArg Transaction.tether (transactionAt_modifyTransaction_ne hne)

/-- A request that is not asleep any more leaves the others as they were. -/
theorem answered {f : Lock → Lock} {d : Deadline} {goal : Goal} {kind : Request} {w : Bool}
    {g : WaitForGraph} (h : TetheredAt i s (.looking c r name kind d goal w))
    (hawake : r = ⟨0, i⟩ → ∀ name, ∀ v ∈ (s.lockAt name).waiters, v.transaction ≠ i)
    (hf : ∀ l : Lock, l.Calms (f l)) (hp : p'.lock? = none) :
    TetheredAt i (((s.modifyLock name f).setGraph g).setWaitingOn r none) p' := by
  refine h.frame (Lock.Calms.lenient.modifyLock fun _ => hf _) (tether_setWaitingOn hawake) ?_ ?_
  · rintro c name kind d goal w rfl
    exact absurd hp (by simp [Stage.lock?])
  · rintro (⟨_, _, _, hlook⟩ | hcall)
    · exact absurd hlook (by simp)
    · exact .inr hcall

theorem sleep {d : Deadline} {goal : Goal} {kind : Request} {w : Bool} {g : WaitForGraph}
    (h : TetheredAt i s (.looking c r name kind d goal w)) (ho : InOrder s
      (.looking c r name kind d goal w)) (hid : r = ⟨0, r.id⟩) (hl : name ∈ s.locks)
    (hi : (s.transactionAt r).isInterrupted = false)
    (ha : Advance s (.looking c r name kind d goal w) (((s.modifyLock name fun l =>
      (l.approach r.id kind w).park c r.id kind).setGraph g).suspend c
        ⟨r, .shared, .waiting name d goal⟩) (.concluded (.asleep c))) :
    TetheredAt i (((s.modifyLock name fun l => (l.approach r.id kind w).park c r.id kind).setGraph
      g).suspend c ⟨r, .shared, .waiting name d goal⟩) (.concluded (.asleep c)) := by
  have hmem : ∀ {other v}, v ∈ ((s.modifyLock name fun l =>
      (l.approach r.id kind w).park c r.id kind).lockAt other).waiters → v.transaction = i →
        v ∈ (s.lockAt other).waiters ∨ other = name ∧ r = ⟨0, i⟩ := by
    intro other v hv hvi
    by_cases hn : other = name
    · subst hn
      rw [lockAt_modifyLock_self hl] at hv
      rcases List.mem_append.mp hv with hv | hv
      · exact .inl (by simpa using hv)
      · rw [List.mem_singleton.mp hv] at hvi
        exact .inr ⟨rfl, by rw [hid, ← hvi]⟩
    · rw [lockAt_modifyLock_ne hn] at hv
      exact .inl hv
  refine ⟨fun other v hv hvi => ?_, by simp, fun other v hv hvi hn hint => ?_⟩
  · rcases hmem hv hvi with hv | ⟨rfl, rfl⟩
    · exact h.slot other v hv hvi
    · exact h.looking c other kind d goal w rfl
  · rcases hmem hv hvi with hv | ⟨rfl, rfl⟩
    · refine (ha.removing ho (h.called other v hv hvi hn hint)).resolve_right ?_
      rintro ⟨_, _, hp⟩
      exact absurd hp (by simp)
    · exact absurd (hi.symm.trans hint) (by simp)

/-- A request of the transaction goes on only while no other one of it is asleep. -/
theorem advance (h : TetheredAt i s p) (ho : InOrder s p) (hw : Waiting s p) (hrec : Recorded s p)
    (hawake : p.requester? = some ⟨0, i⟩ → ∀ name, ∀ v ∈ (s.lockAt name).waiters,
      v.transaction ≠ i) (ha : Advance s p s' p') : TetheredAt i s' p' := by
  have hid : ∀ {r access}, p.user? = some (r, access) → r ∈ s.transactions ∧ r = ⟨0, r.id⟩ :=
    fun hu => ⟨ho.user _ _ hu, hrec.ref_eq ho (ho.user _ _ hu)⟩
  have hremoving : (∀ c access, p ≠ .undoing c ⟨0, i⟩ access .removal []) →
      s.Removing p ⟨0, i⟩ → s'.Removing p' ⟨0, i⟩ := fun hne hr =>
    (ha.removing ho hr).resolve_right fun ⟨c, access, hp⟩ => hne c access hp
  cases ha with
  | @ask c r d n rest kind hi hk =>
    refine h.frame (Lock.Calms.lenient.addLock s _) (fun name v hv => ?_) ?_ (hremoving (by simp))
    · exact tether_setWaitingOn (s := s.addLock _) (fun hr => by simpa using hawake (congrArg _ hr))
        name v (by simpa using hv)
    · rintro c name kind d goal w hlook
      cases hlook
      rw [setWaitingOn, transactionAt_modifyTransaction (s.addLock _) _ _ _ (hid rfl).1, if_pos rfl]
  | @sleep c r name kind d goal w g hj =>
    exact h.sleep ho (hid rfl).2 (hw.looked name rfl) (Attempt.judge_eq_sleeps_iff.mp hj).1
      (.sleep hj)
  | grant =>
    exact h.answered (fun hr => hawake (congrArg _ hr))
      (fun l => (Lock.Calms.approach l _ _ _).trans (.grant _ _ _)) rfl
  | fail =>
    exact h.answered (fun hr => hawake (congrArg _ hr))
      (fun l => (Lock.Calms.approach l _ _ _).trans (.abandon _ _)) rfl
  | refuse | covered =>
    exact h.still (Lock.Calms.lenient.addLock s _) rfl rfl (hremoving (by simp))
  | keep | abort | beginPhased | beginAtOnce =>
    exact h.still (fun _ => .refl _) (tether_modifyTransaction fun _ => rfl) rfl
      (hremoving (by simp))
  | giveBack =>
    exact h.still (Lock.Calms.lenient.modifyLock (f := (Lock.release · _)) fun _ => .release _ _)
      rfl rfl (hremoving (by simp))
  | undone hc =>
    refine h.still (Lock.Calms.lenient.ended s _ _ _) (tether_retire _) rfl
      (hremoving fun _ _ hp => ?_)
    cases hp
    exact hc rfl
  | committed =>
    exact h.still (Lock.Calms.lenient.ended s _ _ _) (tether_retire _) rfl (hremoving (by simp))
  | @removed c r access =>
    have hretired : TetheredAt i (((s.setState r .aborted).retire r).setStatistics
        s.statistics.countRollback) (.undoing c r access .removal []) := by
      refine h.still (Lock.Calms.lenient.ended s _ _ _) (tether_retire _) rfl
        fun hq => hq.imp id ?_
      rintro ⟨b, access', store, rest, hk⟩
      exact ⟨b, access', store, rest, (congrArg (·[b]?) (calls_retire _ _).1).trans hk⟩
    refine alerted hretired.slot fun hne name w hw hwi hn hint => ?_
    refine .inr ((hretired.called name w hw hwi hn hint).resolve_left ?_)
    rintro ⟨_, _, _, hp⟩
    cases hp
    exact hne rfl
  | undo =>
    refine h.still (fun _ => .refl _) rfl rfl (hremoving fun _ _ hp => ?_)
    cases hp
  | _ => exact h.still (fun _ => .refl _) rfl rfl (hremoving (by simp))

theorem rouse {d d' : Deadline} {goal : Goal} {w : Waiter} (h : TetheredAt i s idle)
    (hw : Waiting s idle) (hk : s.calls[c]? = some ⟨r, .shared, .waiting name d goal⟩)
    (hv : (s.lockAt name).waiter? c = some w)
    (hr : s.Removing idle ⟨0, i⟩ → ((s.dismiss c).modifyLock name (·.rouse w)).Removing
      (.looking c r name w.request d' goal true) ⟨0, i⟩) :
    TetheredAt i ((s.dismiss c).modifyLock name (·.rouse w))
      (.looking c r name w.request d' goal true) := by
  obtain ⟨hmem, rfl, hid⟩ := hw.of_waiter? hk hv
  refine h.frame (fun other => ?_) (fun _ _ _ _ => rfl) ?_ hr
  · show (s.lockAt other).Calms ((s.modifyLock name fun l => l.rouse w).lockAt other)
    exact Lock.Calms.lenient.modifyLock
      (fun _ => .of_waiters fun v hv => List.mem_of_mem_filter hv) other
  · rintro _ _ _ _ _ _ hlook
    cases hlook
    exact h.slot name w hmem hid.symm

theorem start (h : TetheredAt i s idle) (ho : InOrder s idle) (hw : Waiting s idle)
    (he : e.usesLock = false) (hst : Start s e s' p) : TetheredAt i s' p := by
  have hremoving : s.Removing idle ⟨0, i⟩ → s'.Removing p ⟨0, i⟩ := hst.removing
  cases hst with
  | acquire | upgrade | release => exact absurd he (by simp [Event.usesLock])
  | begin hn =>
    exact h.still (fun _ => .refl _) (by rw [transactionAt_begin ho hn]) rfl hremoving
  | register | commitInterrupted | rollback | dropEnded | notPrepared | notCommitted =>
    exact h.still (fun _ => .refl _) (tether_modifyTransaction fun _ => rfl) rfl hremoving
  | @drop r =>
    refine h.still (fun _ => .refl _) ?_ rfl hremoving
    have hset : (((s.modifyTransaction r fun t => { t with isOwned := false }).setState r
        .aborting).transactionAt ⟨0, i⟩).tether = ((s.modifyTransaction r fun t =>
          { t with isOwned := false }).transactionAt ⟨0, i⟩).tether :=
      tether_modifyTransaction fun _ => rfl
    exact hset.trans (tether_modifyTransaction fun _ => rfl)
  | @interrupt r | @managerInterrupt r =>
    refine alerted (fun name w hw hwi => ?_) fun hne name w hw hwi hn hint => ?_
    · refine Eq.trans ?_ (h.slot name w hw hwi)
      exact view_modifyTransaction Transaction.waitingOn fun _ => rfl
    · rw [transactionAt_modifyTransaction_ne hne] at hint
      exact h.called name w hw hwi hn hint
  | @remove r hs =>
    refine ⟨fun name w hw hwi => ?_, by simp, fun name w hw hwi hn hint => ?_⟩
    · refine Eq.trans ?_ (h.slot name w hw hwi)
      exact view_modifyTransaction Transaction.waitingOn fun _ => rfl
    · by_cases hir : ⟨0, i⟩ = r
      · exact .inl ⟨_, _, _, by rw [hir]⟩
      · rw [transactionAt_modifyTransaction_ne hir] at hint
        exact hremoving (h.called name w hw hwi hn hint)
  | unlockAll =>
    exact h.still (Lock.Calms.lenient.releaseAll s _)
      (view_releaseAll Transaction.tether fun _ => rfl) rfl hremoving
  | forget =>
    exact h.still (Lock.Calms.lenient.releaseAll s _)
      (view_forget Transaction.tether fun _ => rfl) rfl hremoving
  | wake hk hv => exact h.rouse hw hk hv hremoving
  | expire hk _ hv => exact h.rouse hw hk hv hremoving
  | _ => exact h.still (fun _ => .refl _) rfl rfl hremoving

theorem rest {response : Response} (h : TetheredAt i s (.concluded response)) :
    TetheredAt i s idle :=
  ⟨h.slot, by simp, fun name w hw hwi hn hi => (h.called name w hw hwi hn hi).imp (by simp) id⟩

/-- A transaction without a request asleep need not know anything. -/
theorem of_awake (h : ∀ name, ∀ w ∈ (s.lockAt name).waiters, w.transaction ≠ i) :
    TetheredAt i s idle :=
  ⟨fun name w hw hwi => absurd hwi (h name w hw), by simp,
    fun name w hw hwi => absurd hwi (h name w hw)⟩

end TetheredAt

/-- Every transaction with a request asleep knows on which lock, and if it was interrupted after
the lock was last notified, it is being removed. -/
structure Tethered (s : System) (p : Stage) : Prop where
  slot : ∀ name, ∀ w ∈ (s.lockAt name).waiters,
    (s.transactionAt ⟨0, w.transaction⟩).waitingOn = some name
  looking : ∀ c r name kind d goal w, p = .looking c r name kind d goal w →
    (s.transactionAt r).waitingOn = some name
  called : ∀ name, ∀ w ∈ (s.lockAt name).waiters, w.isNotified = false →
    (s.transactionAt ⟨0, w.transaction⟩).isInterrupted = true → s.Removing p ⟨0, w.transaction⟩

namespace Tethered

theorem each (h : Tethered s p) (i : TransactionId) : TetheredAt i s p where
  slot name w hw hwi := hwi ▸ h.slot name w hw
  looking c name kind d goal w := h.looking c ⟨0, i⟩ name kind d goal w
  called name w hw hwi hn hi := by
    subst hwi
    exact h.called name w hw hn hi

theorem of_forall (h : ∀ i, TetheredAt i s p)
    (hid : ∀ r access, p.user? = some (r, access) → r = ⟨0, r.id⟩) : Tethered s p where
  slot name w hw := (h w.transaction).slot name w hw rfl
  looking c r name kind d goal w hp := by
    subst hp
    obtain ⟨manager, i⟩ := r
    obtain rfl : manager = 0 := congrArg TransactionRef.manager (hid _ _ rfl)
    exact (h i).looking c name kind d goal w rfl
  called name w hw := (h w.transaction).called name w hw rfl

theorem advance (h : Tethered s p) (hg : Guarded s p) (hg' : Guarded s' p')
    (ha : Advance s p s' p') : Tethered s' p' := by
  have ho : InOrder s p := Guarded.invariant.inOrder hg
  have ho' : InOrder s' p' := Guarded.invariant.inOrder hg'
  exact of_forall (fun i => (h.each i).advance ho hg.waiting hg.recorded
    (hg.watched.awake ⟨0, i⟩) ha) fun r access hu => hg'.recorded.ref_eq ho' (ho'.user _ _ hu)

theorem start (h : Tethered s idle) (hg : Guarded s idle) (hg' : Guarded s' p)
    (he : s.OneRequest e) (hst : Start s e s' p) : Tethered s' p := by
  have ho' : InOrder s' p := Guarded.invariant.inOrder hg'
  exact of_forall (fun i => (h.each i).start (Guarded.invariant.inOrder hg) hg.waiting he.1 hst)
    fun r access hu => hg'.recorded.ref_eq ho' (ho'.user _ _ hu)

theorem rest {response : Response} (h : Tethered s (.concluded response)) : Tethered s idle :=
  ⟨h.slot, by simp, fun name w hw hn hi => (h.called name w hw hn hi).imp (by simp) id⟩

theorem new (g : Granularity) (configs : List Config) (lockConfig : Config) :
    Tethered (System.new g configs lockConfig) idle :=
  ⟨fun _ _ hw => absurd hw not_mem_waiters_new, by simp,
    fun _ _ hw => absurd hw not_mem_waiters_new⟩

theorem invariant : Invariant OneRequest fun s p => Guarded s p ∧ Tethered s p where
  inOrder h := Guarded.invariant.inOrder h.1
  rest h := ⟨Guarded.invariant.rest h.1, h.2.rest⟩
  start he h hst :=
    have hg := Guarded.invariant.start he h.1 hst
    ⟨hg, h.2.start h.1 hg he hst⟩
  advance h ha :=
    have hg := Guarded.invariant.advance h.1 ha
    ⟨hg, h.2.advance h.1 hg ha⟩

end Tethered

/-- No request is orphaned: in any run of one manager in which locks are used through transactions
only and no transaction has two requests asleep, whoever sleeps without having been notified does so
for a transaction that is active and was not interrupted, or for one that is being removed and whose
stores are still being rolled back. -/
theorem no_orphan (g : Granularity) (config lockConfig : Config) (events : List Event)
    (ho : Obeys OneRequest (System.new g [config] lockConfig) events) :
    let s := (System.new g [config] lockConfig).run events
    ∀ name, ∀ w ∈ (s.lockAt name).waiters, w.isNotified = false →
      (s.transactionAt ⟨0, w.transaction⟩).state = .active ∧
          (s.transactionAt ⟨0, w.transaction⟩).isInterrupted = false ∨
        s.Removing idle ⟨0, w.transaction⟩ := by
  intro s name w hw hn
  obtain ⟨hg, ht⟩ : Guarded s idle ∧ Tethered s idle :=
    Tethered.invariant.run ⟨.new g config lockConfig, .new g [config] lockConfig⟩ ho
  cases hi : (s.transactionAt ⟨0, w.transaction⟩).isInterrupted with
  | true => exact .inr (ht.called name w hw hn hi)
  | false =>
    exact .inl ⟨(hg.watched.live name w hw).resolve_right (by simp [hi]), rfl⟩

/-- A transaction is being removed and its request sleeps on, while its store is rolled back. -/
theorem asleep_while_removed :
    let events : List Event := [.begin 0, .begin 0, .register ⟨0, 2⟩ ⟨0, "store"⟩,
      .lock ⟨0, 1⟩ ⟨["a"]⟩ .exclusive, .lock ⟨0, 2⟩ ⟨["a"]⟩ .shared, .remove ⟨0, 2⟩]
    let fresh := System.new .hierarchical [{}] {}
    Obeys OneRequest fresh events ∧
      ((fresh.run events).lockAt (.entity ⟨["a"]⟩)).waiters = [⟨0, 2, .shared, 0, false⟩] ∧
      ((fresh.run events).transactionAt ⟨0, 2⟩).state = .aborting ∧
      (fresh.run events).Removing idle ⟨0, 2⟩ := by
  intro events fresh
  have ho : Obeys OneRequest fresh events := by decide +kernel
  have hwaiters : ((fresh.run events).lockAt (.entity ⟨["a"]⟩)).waiters =
      [⟨0, 2, .shared, 0, false⟩] := by decide +kernel
  have hstate : ((fresh.run events).transactionAt ⟨0, 2⟩).state = .aborting := by decide +kernel
  refine ⟨ho, hwaiters, hstate, ?_⟩
  refine (no_orphan .hierarchical {} {} events ho (.entity ⟨["a"]⟩) ⟨0, 2, .shared, 0, false⟩
    (by rw [hwaiters]; simp) rfl).resolve_left ?_
  rintro ⟨hactive, -⟩
  exact absurd (hstate.symm.trans hactive) (by simp)

/-- A transaction with two requests asleep is interrupted.  The later request is notified, fails and
aborts the transaction; the earlier one sleeps on, although its transaction was interrupted and has
ended, and nothing is left that is about to happen. -/
theorem orphan_of_two_requests :
    let events : List Event := [.begin 0, .begin 0,
      .lock ⟨0, 1⟩ ⟨["a"]⟩ .exclusive, .lock ⟨0, 1⟩ ⟨["b"]⟩ .exclusive,
      .lock ⟨0, 2⟩ ⟨["a"]⟩ .exclusive, .lock ⟨0, 2⟩ ⟨["b"]⟩ .exclusive, .interrupt ⟨0, 2⟩, .wake 1]
    let s := (System.new .hierarchical [{}] {}).run events
    s.Settled ∧ s.calls.keys = [0] ∧
      ((s.lockAt (.entity ⟨["a"]⟩)).waiters.map fun w => (w.call, w.transaction)) = [(0, 2)] ∧
      (s.transactionAt ⟨0, 2⟩).state = .aborted ∧
      (s.transactionAt ⟨0, 2⟩).isInterrupted = true := by
  decide +kernel

end System

end Locking
