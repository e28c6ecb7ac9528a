import Locking.Proofs.Commit.Standing
import Locking.Proofs.System.Numbers

/-! What active transactions hold, whichever manager has begun them.  As long as transactions in use
are told apart by their numbers, nobody takes a lock from an active transaction: whatever is in its
lock set it owns, unless a request of it has given up the hold to upgrade it, and what it owns
exclusively it keeps so. -/

namespace Locking

namespace Lock

variable {l : Lock} {i j : TransactionId} {kind : Request} {mode : LockMode}

/-- Who owns a lock exclusively is its only owner. -/
theorem Sound.eq_of_exclusive (h : l.Sound) (hi : l.modeOf i = some .exclusive)
    (hj : l.modeOf j ≠ none) : i = j := by
  have howner : ∀ {k}, l.modeOf k ≠ none → k ∈ l.owners := fun hk =>
    not_not.mp fun hn => hk (if_neg hn)
  have hown : i ∈ l.owners := howner (by rw [hi]; simp)
  rw [modeOf, if_pos hown] at hi
  exact h.exclusive hi i hown j (howner hj)

/-- An exclusive hold is still one after another request of its owner has been granted. -/
theorem modeOf_grant_exclusive_self (hg : l.grantable i kind = true)
    (h : l.modeOf i = some .exclusive) : (l.grant i kind).modeOf i = some .exclusive := by
  have hcovers : l.Covers i .exclusive := ⟨.exclusive, h, rfl⟩
  obtain ⟨held, hheld, hmode⟩ := covers_grant hg hcovers
  cases held with
  | exclusive => exact hheld
  | shared => exact absurd hmode (by decide)

/-- Who has to ask for a lock does not hold it exclusively. -/
theorem modeOf_ne_exclusive (h : Request.of? (l.modeOf i) mode = some kind) :
    l.modeOf i ≠ some .exclusive := by
  intro hx
  rw [hx] at h
  cases mode <;> exact absurd h (by simp [Request.of?])

/-- Who need not ask for a lock holds it. -/
theorem modeOf_ne_none (h : Request.of? (l.modeOf i) mode = none) : l.modeOf i ≠ none := by
  intro hn
  rw [hn] at h
  cases mode <;> exact absurd h (by simp [Request.of?])

end Lock

namespace System

variable {s s' : System} {p p' : Stage} {e : Event} {r q : TransactionRef} {name : LockName}
  {hs : History} {a : EntityId}

/-- What a request that goes on is for, and what its transaction holds then. -/
def Fits (s : System) : Stage → Prop
  | .looking _ r name _ _ goal w =>
    (∃ e rest, name = .entity e ∧ goal = .plan e rest) ∧
      (w = false → (s.lockAt name).modeOf r.id ≠ some .exclusive)
  | .granted _ r _ goal _ =>
    ∃ e rest, goal = .plan e rest ∧ (s.lockAt (.entity e)).modeOf r.id ≠ none
  | .failed _ _ goal _ => ∃ e rest, goal = .plan e rest
  | _ => True

/-- A request of a transaction for the lock of an entity is asleep or looks at the lock, or a
request of it has just failed. -/
def Seeks (s : System) (p : Stage) (r : TransactionRef) (a : EntityId) : Prop :=
  (∃ (c : CallId) (access : Access) (d : Deadline) (goal : Goal),
      s.calls[c]? = some ⟨r, access, .waiting (.entity a) d goal⟩) ∨
    (∃ c kind d goal w, p = .looking c r (.entity a) kind d goal w) ∨
      ∃ c goal error, p = .failed c r goal error

/-- What holds of the requests and of the lock sets of active transactions. -/
structure Holdings (s : System) (p : Stage) : Prop where
  planned : ∀ (c : CallId) (r : TransactionRef) (access : Access) (name : LockName) (d : Deadline)
    (goal : Goal), s.calls[c]? = some ⟨r, access, .waiting name d goal⟩ →
      ∃ e rest, name = .entity e ∧ goal = .plan e rest
  stage : s.Fits p
  owned : ∀ r, (s.transactionAt r).state = .active → ∀ a ∈ (s.transactionAt r).lockSet,
    (s.lockAt (.entity a)).modeOf r.id ≠ none ∨ s.Seeks p r a

/-- All that is known of several managers that give no number that is in use. -/
structure Secure (s : System) (p : Stage) : Prop where
  ledger : ∃ hs, Ledger s p hs
  waiting : Waiting s p
  distinct : Distinct s p
  holdings : Holdings s p

/-! ### Active transactions and their lock sets -/

theorem mem_of_mem_lockSet (h : a ∈ (s.transactionAt r).lockSet) : r ∈ s.transactions := by
  by_contra hn
  rw [transactionAt_of_not_mem hn] at h
  exact absurd h (by simp [default])

/-- Who is active after a transaction has ended is another one. -/
theorem ne_of_retired {state : State} (hr : r ∈ s.transactions) (hne : state ≠ .active)
    (hq : (((s.setState r state).retire r).transactionAt q).state = .active) : q ≠ r := by
  rintro rfl
  exact hne ((state_retired hr state).symm.trans hq)

/-- Nothing leaves the lock set of an active transaction, and what enters it has been granted. -/
theorem Advance.lockSet (hl : Ledger s p hs) (ha : Advance s p s' p')
    (hq : (s'.transactionAt q).state = .active) :
    (s'.transactionAt q).lockSet = (s.transactionAt q).lockSet ∨
      ∃ c d b rest w, p = .granted c q d (.plan b rest) w ∧
        (s'.transactionAt q).lockSet = (s.transactionAt q).lockSet.insert b := by
  have hretired : ∀ {r access state}, p.user? = some (r, access) → state ≠ .active →
      (((s.setState r state).retire r).transactionAt q).state = .active →
        (((s.setState r state).retire r).transactionAt q).lockSet =
          (s.transactionAt q).lockSet := by
    intro r access state hu hne hq
    have hr := hl.inOrder.user r access hu
    have hqr : q ≠ r := ne_of_retired hr hne hq
    have hkept := transactionAt_retire (s := s.setState r state) (q := q)
      (mem_transactions_modifyTransaction.mpr hr)
    rw [if_neg hqr, setState, transactionAt_modifyTransaction_ne hqr] at hkept
    exact congrArg Transaction.lockSet hkept
  cases ha with
  | ask | grant | fail | abort | beginPhased | beginAtOnce =>
    exact .inl (view_modifyTransaction Transaction.lockSet fun _ => rfl)
  | @keep c r d b rest w =>
    by_cases hqr : q = r
    · subst hqr
      have hr := hl.inOrder.user q _ rfl
      exact .inr ⟨c, d, b, rest, w, rfl, congrArg Transaction.lockSet
        ((transactionAt_modifyTransaction s q q _ hr).trans (if_pos rfl))⟩
    · exact .inl (congrArg Transaction.lockSet (transactionAt_modifyTransaction_ne hqr))
  | undone | committed => exact .inl (hretired rfl (by simp) hq)
  | removed =>
    rw [transactionAt_alert] at hq ⊢
    exact .inl (hretired rfl (by simp) hq)
  | _ => exact .inl rfl

theorem Start.lockSet (ho : InOrder s idle) (he : e.handlesLocks = false) (hst : Start s e s' p) :
    (s'.transactionAt q).lockSet = (s.transactionAt q).lockSet := by
  cases hst with
  | begin hn => rw [transactionAt_begin ho hn]
  | register | dropEnded | commitInterrupted | rollback | notPrepared | notCommitted | remove =>
    exact view_modifyTransaction Transaction.lockSet fun _ => rfl
  | @drop r =>
    have hdropped : ((s.modifyTransaction r fun t => { t with isOwned := false }).transactionAt
        q).lockSet = (s.transactionAt q).lockSet :=
      view_modifyTransaction Transaction.lockSet fun _ => rfl
    exact Eq.trans (view_modifyTransaction Transaction.lockSet fun _ => rfl) hdropped
  | interrupt | managerInterrupt =>
    rw [System.interrupt, transactionAt_alert]
    exact view_modifyTransaction Transaction.lockSet fun _ => rfl
  | acquire | upgrade | unlockAll | forget => exact absurd he (by simp [Event.handlesLocks])
  | _ => rfl

/-! ### Holds of active transactions -/

/-- Nobody takes a lock from an active transaction but a request of its own for that lock, if nobody
else who goes on has its number. -/
theorem Advance.modeOf_of_active (hl : Ledger s p hs) (ha : Advance s p s' p')
    (hid : ∀ q access, p.user? = some (q, access) → q ≠ r → r.id ≠ q.id)
    (hr : (s'.transactionAt r).state = .active)
    (hlook : ∀ c kind d goal w, p ≠ .looking c r name kind d goal w) :
    (s'.lockAt name).modeOf r.id = (s.lockAt name).modeOf r.id := by
  have hactive := active_of_turns (ha.turns hl r) hr
  have hretired : ∀ {q access state}, p.user? = some (q, access) → state ≠ .active →
      (((s.setState q state).retire q).transactionAt r).state = .active →
        (((s.setState q state).retire q).lockAt name).modeOf r.id =
          (s.lockAt name).modeOf r.id := by
    intro q access state hu hne hr
    have hrq : r ≠ q := ne_of_retired (hl.inOrder.user q access hu) hne hr
    exact modeOf_releaseAll (s := s.setState q state) (hid q access hu hrq.symm)
  -- A request of the transaction itself is one for another lock.
  have hlooked : ∀ {c q other kind d goal w} {f : Lock → Lock},
      p = .looking c q other kind d goal w →
        (r.id ≠ q.id → (f (s.lockAt other)).modeOf r.id = (s.lockAt other).modeOf r.id) →
          ((s.modifyLock other f).lockAt name).modeOf r.id = (s.lockAt name).modeOf r.id := by
    rintro c q other kind d goal w f rfl hf
    by_cases hq : q = r
    · subst hq
      have hn : name ≠ other := fun hn => hlook c kind d goal w (by rw [hn])
      rw [lockAt_modifyLock_ne hn]
    · exact modeOf_modifyLock (hf (hid q _ rfl hq))
  have happroach : ∀ {other : LockName} {i kind w}, r.id ≠ i →
      ((s.lockAt other).approach i kind w).modeOf r.id = (s.lockAt other).modeOf r.id :=
    fun hne => Lock.modeOf_approach fun hi => hne hi.2.symm
  cases ha with
  | refuse | covered | ask => exact congrArg (Lock.modeOf · r.id) (lockAt_addLock s _ name)
  | sleep => exact hlooked rfl fun hne => Lock.modeOf_park.trans (happroach hne)
  | grant hj =>
    obtain ⟨-, hgrantable, -⟩ := Attempt.judge_eq_granted_iff.mp hj
    exact hlooked rfl fun hne => (Lock.modeOf_grant_ne hne hgrantable).trans (happroach hne)
  | fail => exact hlooked rfl fun hne => Lock.modeOf_abandon.trans (happroach hne)
  | @giveBack c q d b rest w hq =>
    have hne : q ≠ r := by
      rintro rfl
      exact hq hactive
    exact modeOf_modifyLock (s := s) (Lock.modeOf_release.trans (if_neg (hid q _ rfl hne)))
  | undone | committed => exact hretired rfl (by simp) hr
  | removed =>
    rw [transactionAt_alert] at hr
    exact modeOf_alert.trans (hretired rfl (by simp) hr)
  | _ => rfl

namespace Secure

theorem modeOf (h : Secure s p) (ha : Advance s p s' p') (hmem : r ∈ s.transactions)
    (hr : (s'.transactionAt r).state = .active)
    (hlook : ∀ c kind d goal w, p ≠ .looking c r name kind d goal w) :
    (s'.lockAt name).modeOf r.id = (s.lockAt name).modeOf r.id := by
  obtain ⟨hs, hl⟩ := h.ledger
  have hactive := active_of_turns (ha.turns hl r) hr
  exact ha.modeOf_of_active hl (fun q access hu hne hid =>
    hne (h.distinct _ _ (inUse_of_user hu) (inUse_of_active hmem hactive) hid.symm)) hr hlook

/-- What an active transaction owns exclusively it keeps so. -/
theorem exclusive (h : Secure s p) (ha : Advance s p s' p') (hmem : r ∈ s.transactions)
    (hr : (s'.transactionAt r).state = .active)
    (hx : (s.lockAt name).modeOf r.id = some .exclusive) :
    (s'.lockAt name).modeOf r.id = some .exclusive := by
  by_cases hlook : ∃ c kind d goal w, p = .looking c r name kind d goal w
  swap
  · rw [h.modeOf ha hmem hr fun c kind d goal w hp => hlook ⟨c, kind, d, goal, w, hp⟩, hx]
  obtain ⟨c, kind, d, goal, w, rfl⟩ := hlook
  -- A request for a lock that its transaction owns exclusively has been asleep before.
  have happroach : ((s.lockAt name).approach r.id kind w).modeOf r.id = some .exclusive :=
    (Lock.modeOf_approach fun hw => h.holdings.stage.2 hw.1 hx).trans hx
  have hmodified : ∀ {f : Lock → Lock}, (f (s.lockAt name)).modeOf r.id = some .exclusive →
      ((s.modifyLock name f).lockAt name).modeOf r.id = some .exclusive := fun hf => by
    rw [lockAt_modifyLock_self (h.waiting.looked name rfl), hf]
  cases ha with
  | sleep => exact hmodified (Lock.modeOf_park.trans happroach)
  | grant hj =>
    obtain ⟨-, hgrantable, -⟩ := Attempt.judge_eq_granted_iff.mp hj
    exact hmodified (Lock.modeOf_grant_exclusive_self hgrantable happroach)
  | fail => exact hmodified (Lock.modeOf_abandon.trans happroach)

end Secure

/-! ### Requests that are asleep -/

/-- A call that is asleep stays so, though maybe with another deadline, unless it looks at its lock
again. -/
theorem Start.calls_waiting {c : CallId} {access : Access} {d : Deadline} {goal : Goal}
    (hst : Start s e s' p) (hk : s.calls[c]? = some ⟨r, access, .waiting name d goal⟩) :
    (∃ d', s'.calls[c]? = some ⟨r, access, .waiting name d' goal⟩) ∨
      ∃ kind d', p = .looking c r name kind d' goal true := by
  have hother : ∀ {b : CallId} {q access point}, s.calls[b]? = some ⟨q, access, point⟩ →
      point.isAsleep = false → c ≠ b := by
    rintro b q access' point hb hp rfl
    rw [hk] at hb
    cases hb
    exact absurd hp (by simp [Point.isAsleep])
  have hkept : ∀ {b : CallId}, c ≠ b →
      (s.dismiss b).calls[c]? = some ⟨r, access, .waiting name d goal⟩ := fun hb => by
    rw [calls_dismiss, if_neg hb, hk]
  cases hst with
  | @wake b _ _ _ _ _ hb | @expire b _ _ _ _ _ hb =>
    by_cases hcb : c = b
    · subst hcb
      rw [hk] at hb
      cases hb
      exact .inr ⟨_, _, rfl⟩
    · exact .inl ⟨d, hkept hcb⟩
  | @expireIdle b q other d' goal' hb =>
    left
    rw [calls_suspend]
    split
    · next hcb =>
      subst hcb
      rw [hk] at hb
      cases hb
      exact ⟨_, rfl⟩
    · exact ⟨d, hk⟩
  | prepared hb | notPrepared hb | notPreparedEnded hb | committed hb | notCommitted hb
  | notCommittedEnded hb | rolledBack hb => exact .inl ⟨d, hkept (hother hb rfl)⟩
  | interrupt | managerInterrupt =>
    rw [System.interrupt, (calls_alert _ _).1]
    exact .inl ⟨d, hk⟩
  | unlockAll | forget =>
    left
    exact ⟨d, (congrArg (·[c]?) (calls_releaseAll s _).1).trans hk⟩
  | _ => exact .inl ⟨d, hk⟩

/-! ### Requests and lock sets -/

namespace Holdings

/-- What is in the lock set of an active transaction it owns, or a request of it for the lock is
under way. -/
theorem owned_advance (h : Secure s p) (ha : Advance s p s' p')
    (hr : (s'.transactionAt r).state = .active) (hmem : a ∈ (s'.transactionAt r).lockSet) :
    (s'.lockAt (.entity a)).modeOf r.id ≠ none ∨ s'.Seeks p' r a := by
  obtain ⟨hs, hl⟩ := h.ledger
  have hactive := active_of_turns (ha.turns hl r) hr
  have hknown : r ∈ s.transactions := ha.mem_transactions.mp (mem_of_mem_lockSet hmem)
  by_cases hlook : ∃ c kind d goal w, p = .looking c r (.entity a) kind d goal w
  · obtain ⟨c, kind, d, goal, w, rfl⟩ := hlook
    cases ha with
    | sleep => exact .inr (.inl ⟨c, .shared, d, goal, calls_suspend_self⟩)
    | grant =>
      left
      show ((s.modifyLock _ _).lockAt _).modeOf _ ≠ _
      rw [lockAt_modifyLock_self (h.waiting.looked _ rfl), Lock.modeOf_grant_self]
      simp
    | fail => exact .inr (.inr (.inr ⟨c, goal, _, rfl⟩))
  rw [h.modeOf ha hknown hr fun c kind d goal w hp => hlook ⟨c, kind, d, goal, w, hp⟩]
  have hbefore : (s.lockAt (.entity a)).modeOf r.id ≠ none ∨ s.Seeks p r a := by
    obtain heq | ⟨c, d, b, rest, w, rfl, heq⟩ := ha.lockSet hl hr
    · exact h.holdings.owned r hactive a (heq ▸ hmem)
    · rw [heq, Std.ExtTreeSet.mem_insert, Std.LawfulEqOrd.compare_eq_iff_eq] at hmem
      obtain rfl | hmem := hmem
      · obtain ⟨e, rest', hgoal, hne⟩ := h.holdings.stage
        cases hgoal
        exact .inl hne
      · exact h.holdings.owned r hactive a hmem
  refine hbefore.imp id ?_
  rintro (⟨c, access, d, goal, hk⟩ | ⟨c, kind, d, goal, w, rfl⟩ | ⟨c, goal, error, rfl⟩)
  · exact .inl ⟨c, access, d, goal, hl.inOrder.calls_of_advance ha hk⟩
  · exact absurd ⟨c, kind, d, goal, w, rfl⟩ hlook
  · -- A request that has failed makes its transaction abort.
    obtain ⟨e, rest, rfl⟩ := h.holdings.stage
    cases ha with
    | abort =>
      have hstate := (moves_setState (s := s.setStatistics (s.statistics.countFailure error))
        hknown .aborting).self
      exact absurd (hstate.symm.trans hr) (by simp)
    | abortEnded hs =>
      rw [hactive] at hs
      exact absurd hs (by simp [State.canRollBack])

theorem advance (h : Secure s p) (ha : Advance s p s' p') : Holdings s' p' := by
  obtain ⟨hs, hl⟩ := h.ledger
  have hfits := h.holdings.stage
  refine ⟨fun c r access name d goal hk => ?_, ?_, fun r hr a => owned_advance h ha hr⟩
  · obtain hk | ⟨r', name', kind, d', goal', w, rfl, hk, -⟩ := ha.calls_of_asleep hk rfl
    · exact h.holdings.planned c r access name d goal hk
    · cases hk
      exact hfits.1
  · cases ha with
    | refuse | giveBack => exact ⟨_, _, rfl⟩
    | covered _ hk =>
      refine ⟨_, _, rfl, ?_⟩
      rw [lockAt_addLock]
      exact Lock.modeOf_ne_none hk
    | ask _ hk =>
      refine ⟨⟨_, _, rfl, rfl⟩, fun _ => ?_⟩
      show ((s.addLock _).lockAt _).modeOf _ ≠ _
      rw [lockAt_addLock]
      exact Lock.modeOf_ne_exclusive hk
    | @grant c r name kind d goal w g hj =>
      obtain ⟨⟨e, rest, rfl, rfl⟩, -⟩ := hfits
      refine ⟨e, rest, rfl, ?_⟩
      show ((s.modifyLock _ _).lockAt _).modeOf _ ≠ _
      rw [lockAt_modifyLock_self (h.waiting.looked _ rfl), Lock.modeOf_grant_self]
      simp
    | fail =>
      obtain ⟨⟨e, rest, -, rfl⟩, -⟩ := hfits
      exact ⟨e, rest, rfl⟩
    | _ => trivial

theorem start (h : Holdings s idle) (ho : InOrder s idle) (he : e.handlesLocks = false)
    (hst : Start s e s' p) : Holdings s' p where
  planned c r access name d goal hk := by
    obtain ⟨d', hk⟩ := ho.calls_of_asleep hst hk
    exact h.planned c r access name d' goal hk
  stage := by
    cases hst with
    | acquire | upgrade => exact absurd he (by simp [Event.handlesLocks])
    | wake hk | expire hk => exact ⟨h.planned _ _ _ _ _ _ hk, by simp⟩
    | _ => trivial
  owned r hr a hmem := by
    have hactive := active_of_turns (.begins (hst.begins ho r)) hr
    rw [hst.lockSet ho he] at hmem
    rw [hst.modeOf_eq he]
    refine (h.owned r hactive a hmem).imp id ?_
    rintro (⟨c, access, d, goal, hk⟩ | ⟨c, kind, d, goal, w, hp⟩ | ⟨c, goal, error, hp⟩)
    · obtain ⟨d', hk'⟩ | ⟨kind, d', rfl⟩ := hst.calls_waiting hk
      · exact .inl ⟨c, access, d', goal, hk'⟩
      · exact .inr (.inl ⟨c, kind, d', goal, true, rfl⟩)
    · exact absurd hp (by simp)
    · exact absurd hp (by simp)

end Holdings

namespace Secure

theorem new (g : Granularity) (configs : List Config) (lockConfig : Config) :
    Secure (System.new g configs lockConfig) idle := by
  have hnone : ∀ r, ¬ (System.new g configs lockConfig).InUse idle r := by
    rintro r (⟨hmem, -⟩ | ⟨access, hu⟩ | ⟨c, k, hk, -⟩)
    · exact absurd hmem (by simp [System.new])
    · exact absurd hu (by simp [Stage.user?])
    · exact absurd hk (by simp [System.new])
  refine ⟨⟨_, .new g configs lockConfig⟩, .new g configs lockConfig,
    fun r q hr => absurd hr (hnone r), ?_, trivial, fun r _ a hmem => ?_⟩
  · intro c r access name d goal hk
    exact absurd hk (by simp [System.new])
  · exact absurd (mem_of_mem_lockSet hmem) (by simp [System.new])

theorem invariant : Invariant Unmistakable Secure where
  inOrder h := h.ledger.choose_spec.inOrder
  rest h := by
    refine ⟨Ledger.invariant.rest h.ledger, h.waiting.rest, ?_, h.holdings.planned, trivial, ?_⟩
    · exact h.distinct
    · exact fun r hr a hmem => (h.holdings.owned r hr a hmem).imp id fun hs => by
        simpa [Seeks] using hs
  start he h hst := by
    have ho := h.ledger.choose_spec.inOrder
    exact ⟨Ledger.invariant.start trivial h.ledger hst, h.waiting.start ho hst,
      h.distinct.start ho he hst, h.holdings.start ho he.1 hst⟩
  advance h ha := by
    obtain ⟨hs, hl⟩ := h.ledger
    exact ⟨Ledger.invariant.advance h.ledger ha, h.waiting.advance hl.inOrder ha,
      h.distinct.advance hl ha, .advance h ha⟩

end Secure

end System

end Locking
