import Locking.Proofs.Hierarchy.Plan
import Locking.Proofs.System.Accounted
import Locking.Proofs.System.Life

/-! What a transaction has under the hierarchical granularity while any number of calls go on side by
side.  As long as it is active and none of its requests has failed, or a call that excludes all others
uses it, it has the containers of everything that it has, and every call of it goes on to take what is
left in order. -/

namespace Locking

/-- The entities whose locks a call still has to get, the one that it asks for included. -/
def Goal.entities : Goal → List EntityId
  | single => []
  | plan e rest => e :: rest.map Need.entity

/-- The entities whose locks a lock request still has to get. -/
def Stage.plan? : Stage → Option (TransactionRef × List EntityId)
  | taking _ r _ needs => some (r, needs.map Need.entity)
  | looking _ r _ _ _ goal _ => some (r, goal.entities)
  | granted _ r _ goal _ => some (r, goal.entities.tail)
  | _ => none

theorem Stage.requester?_of_plan? {p : Stage} {r : TransactionRef} {es : List EntityId}
    (h : p.plan? = some (r, es)) : p.requester? = some r := by
  cases p <;> simp_all [Stage.plan?, Stage.requester?]

theorem Stage.Suspends.plan? {p q : Stage} (h : p.Suspends q) : q.plan? = p.plan? := by
  cases h <;> rfl

namespace System

variable {s s' : System} {p p' : Stage} {e : Event} {r q : TransactionRef} {c : CallId}
  {name : LockName} {i : TransactionId} {es : List EntityId}

/-- Transaction number `t` has the lock of an entity. -/
def Holds (s : System) (t : TransactionId) (e : EntityId) : Prop := (s.lockAt (.entity e)).Has t

theorem Advance.granularity (h : Advance s p s' p') : s'.granularity = s.granularity :=
  congrArg Prod.fst h.settings

theorem Start.granularity (h : Start s e s' p) : s'.granularity = s.granularity :=
  congrArg Prod.fst h.settings

/-! ### Losing a lock -/

/-- Who loses a lock by an advance has a request that fails, or has ended. -/
theorem Advance.has_or_ended (ho : InOrder s p) (ha : Advance s p s' p')
    (hi : (s.lockAt name).Has i) : (s'.lockAt name).Has i ∨ p'.Fails i ∨
      ∃ r access, p.user? = some (r, access) ∧ r.id = i ∧
        (s'.transactionAt r).state.isFinal = true := by
  have hretired : ∀ {r state}, i ≠ r.id → (((s.setState r state).retire r).lockAt name).Has i :=
    fun {r state} hne => has_releaseAll_of_has (s := s.setState r state) hi hne
  cases ha with
  | sleep => exact .inl (has_modifyLock_of_has hi fun h => Lock.has_park.mpr h.approach)
  | grant hj =>
    obtain ⟨-, hg, -⟩ := Attempt.judge_eq_granted_iff.mp hj
    exact .inl (has_modifyLock_of_has hi fun h => h.approach.grant hg)
  | @fail c r =>
    by_cases hir : i = r.id
    · exact .inr (.inl hir.symm)
    · exact .inl (has_modifyLock_of_has hi fun h => h.approach.abandon hir)
  | @giveBack c r =>
    by_cases hir : i = r.id
    · exact .inr (.inl hir.symm)
    · exact .inl (has_modifyLock_of_has (f := (Lock.release · r.id)) hi fun h =>
        Lock.has_release.mpr ⟨hir, h⟩)
  | @undone c r access | @committed c r =>
    by_cases hir : i = r.id
    · refine .inr (.inr ⟨r, _, rfl, hir.symm, ?_⟩)
      exact congrArg State.isFinal (state_retired (ho.user r _ rfl) _)
    · exact .inl (hretired hir)
  | @removed c r access =>
    by_cases hir : i = r.id
    · refine .inr (.inr ⟨r, _, rfl, hir.symm, ?_⟩)
      rw [transactionAt_alert]
      exact congrArg State.isFinal (state_retired (ho.user r _ rfl) _)
    · exact .inl (has_alert.mpr (hretired hir))
  | refuse | covered | ask => exact .inl ((lockAt_addLock s _ name).symm ▸ hi)
  | _ => exact .inl hi

/-- Who has a lock after an advance had it before, or its request has just looked at the lock. -/
theorem Advance.has_or_looked (hw : Waiting s p) (ha : Advance s p s' p')
    (hi : (s'.lockAt name).Has i) : (s.lockAt name).Has i ∨ ∃ c r kind d goal w,
      p = .looking c r name kind d goal w ∧ r.id = i := by
  rcases hi with hi | hi
  · rcases ha.mem_owners hi with hi | ⟨c, r, kind, d, goal, w, hp, -, hr⟩
    · exact .inl (.inl hi)
    · exact .inr ⟨c, r, kind, d, goal, w, hp, hr⟩
  · rcases ha.mem_upgraders hw hi with ⟨hi, -⟩ | ⟨c, r, d, goal, w, hp, -, hr⟩
    · exact .inl (.inr hi)
    · exact .inr ⟨c, r, .upgrade, d, goal, w, hp, hr⟩

/-- Who loses a lock before a call goes on has all locks of its lock set released. -/
theorem Start.has_or_released (he : e.usesLock = false) (hs : Start s e s' p)
    (hi : (s.lockAt name).Has i) : (s'.lockAt name).Has i ∨ ∃ r ∈ s.transactions,
      (e = .unlockAll r ∨ e = .forget r) ∧ p.call? = none ∧ r.id = i ∧
        ∀ other, (s'.lockAt other).Has i → other ∉ (s.transactionAt r).lockedNames := by
  cases hs with
  | acquire | upgrade | release => exact absurd he (by simp [Event.usesLock])
  | @unlockAll r ha | @forget r ha =>
    by_cases hir : i = r.id
    · refine .inr ⟨r, (admits_iff.mp ha).1, by simp, rfl, hir.symm, fun other hother hlisted => ?_⟩
      exact (has_releaseAll hother).2 hlisted hir
    · exact .inl (has_releaseAll_of_has hi hir)
  | interrupt | managerInterrupt => exact .inl (has_alert.mpr hi)
  | wake | expire => exact .inl (has_modifyLock_of_has hi id)
  | _ => exact .inl hi

/-! ### What is left to get -/

/-- What is left to get after an advance was left before, except for a lock that the transaction has
now. -/
theorem Advance.plan? (ho : InOrder s p) (hw : Waiting s p) (hp : p.InPlan)
    (ha : Advance s p s' p') (hq : p'.plan? = some (r, es)) : ∃ es₀, p.plan? = some (r, es₀) ∧
      (es = es₀ ∨ ∃ a, es₀ = a :: es ∧ s'.Holds r.id a) := by
  cases ha with
  | @covered c r d n rest hi hk =>
    cases hq
    refine ⟨_, rfl, .inr ⟨n.entity, rfl, ?_⟩⟩
    rw [Holds, lockAt_addLock]
    apply Or.inl
    by_contra hno
    rw [Lock.modeOf, if_neg hno] at hk
    cases hmode : n.mode <;> rw [hmode] at hk <;> exact absurd hk (by simp [Request.of?])
  | @grant c r name kind d goal w g hj =>
    obtain ⟨a, rest, rfl, rfl⟩ := hp
    cases hq
    refine ⟨_, rfl, .inr ⟨a, rfl, ?_⟩⟩
    show ((s.modifyLock (.entity a) fun l =>
      (l.approach r.id kind w).grant r.id kind).lockAt (.entity a)).Has r.id
    rw [lockAt_modifyLock_self (hw.looked _ rfl)]
    exact Lock.has_grant_self
  | ask | keep =>
    cases hq
    exact ⟨_, rfl, .inl rfl⟩
  | _ => exact absurd hq (by simp [Stage.plan?])

/-- What is left to get when a call goes on comes in order, or was left when the call fell asleep. -/
theorem Start.plan? (he : e.usesLock = false) (hg : s.granularity = .hierarchical)
    (hs : Start s e s' p) (hq : p.plan? = some (r, es)) :
    (∀ had, EntityId.Ordered had es) ∨
      ∃ c q, s.resumesAt c = some q ∧ q.plan? = some (r, es) := by
  cases hs with
  | acquire | upgrade => exact absurd he (by simp [Event.usesLock])
  | lock =>
    cases hq
    rw [hg]
    exact .inl fun _ => Granularity.ordered_needs _ _
  | lockAll =>
    cases hq
    rw [hg]
    exact .inl fun _ => Granularity.ordered_needsOfAll _
  | wake hk hw | expire hk _ hw => exact .inr ⟨_, _, resumesAt_of_waiter? hk hw, hq⟩
  | _ => exact absurd hq (by simp [Stage.plan?])

/-! ### Calls that exclude all others -/

/-- A call that excludes all others goes on with its transaction until the transaction has ended. -/
theorem Advance.keeps_exclusive (ho : InOrder s p) (ha : Advance s p s' p')
    (hc : p.call? = some c) (hu : p.user? = some (r, .exclusive))
    (hf : (s'.transactionAt r).state.isFinal = false) :
    p'.call? = some c ∧ p'.user? = some (r, .exclusive) ∨
      ∃ j, s'.calls[c]? = some j ∧ j.transaction = r ∧ j.access = .exclusive := by
  have hmem := ho.user r _ hu
  cases ha with
  | beginPhased | beginAtOnce | prepared => exact .inl ⟨hc, hu⟩
  | undo | prepare | commit =>
    cases hu
    cases hc
    exact .inr ⟨_, by rw [calls_suspend, if_pos rfl], rfl, rfl⟩
  | undone =>
    cases hu
    have hstate := (congrArg State.isFinal (state_retired hmem .aborted)).symm.trans hf
    exact absurd hstate (by simp [State.isFinal])
  | removed =>
    cases hu
    rw [transactionAt_alert] at hf
    have hstate := (congrArg State.isFinal (state_retired hmem .aborted)).symm.trans hf
    exact absurd hstate (by simp [State.isFinal])
  | committed =>
    cases hu
    have hstate := (congrArg State.isFinal (state_retired hmem .committed)).symm.trans hf
    exact absurd hstate (by simp [State.isFinal])
  | _ => exact absurd hu (by simp [Stage.user?])

/-- A call that begins to exclude all others finds a transaction that can be rolled back. -/
theorem Start.canRollBack (hs : Start s e s' p) (he : e.use? = some (r, .exclusive))
    (hu : p.user? = some (r, .exclusive)) : (s.transactionAt r).state.canRollBack = true := by
  cases hs with
  | commit _ hs =>
    cases hu
    rw [hs]
    rfl
  | commitInterrupted _ _ hs | rollback _ hs | drop _ hs =>
    cases hu
    exact hs
  | prepared | notPrepared | committed | notCommitted | rolledBack | remove =>
    exact absurd he (by simp [Event.use?])
  | _ => exact absurd hu (by simp [Stage.user?])

end System

namespace Crowd

open Locking.System EntityId

/-- Locks are used through transactions only.  The locks of transaction number `t` are not released
while a lock request of it is in progress, and on its way out it gives back a lock of its lock set after
those of the entities inside. -/
def Steadfast (t : TransactionId) (k : Crowd) : Deed → Prop
  | .event e => e.usesLock = false ∧ (e = .unlockAll ⟨0, t⟩ ∨ e = .forget ⟨0, t⟩ →
      ∀ c p, k.stage? c = some p → p.requester? ≠ some ⟨0, t⟩)
  | .release r name => r = ⟨0, t⟩ → ∀ c, name = .entity c →
      ∀ e ∈ (k.system.transactionAt r).lockSet, c ∈ e.ancestors → ¬ k.system.Holds t e
  | _ => True

/-- A call that excludes all others uses the transaction. -/
def Reserved (k : Crowd) (r : TransactionRef) : Prop :=
  ∃ c p, k.stage? c = some p ∧ p.user? = some (r, .exclusive)

/-- Transaction number `t` is active, or a call that excludes all others uses it; and no request of it
has failed. -/
def Intact (k : Crowd) (t : TransactionId) : Prop :=
  ((k.system.transactionAt ⟨0, t⟩).state = .active ∨ k.Reserved ⟨0, t⟩) ∧
    ∀ c p, k.stage? c = some p → ¬ p.Fails t

/-- Transaction number `t` has all containers of what it has, and gets what it wants in order. -/
structure Nested (k : Crowd) (t : TransactionId) : Prop where
  closed : ∀ e, k.system.Holds t e → ∀ c ∈ e.ancestors, k.system.Holds t c
  planned : ∀ c p es, k.stage? c = some p → p.plan? = some (⟨0, t⟩, es) →
    Ordered (k.system.Holds t) es

/-- What holds of transaction number `t` of one manager with the hierarchical granularity. -/
structure Contained (t : TransactionId) (k : Crowd) : Prop where
  accounted : k.Accounted
  hierarchical : k.system.granularity = .hierarchical
  committing : (k.system.transactionAt ⟨0, t⟩).state = .committing → k.Reserved ⟨0, t⟩
  nested : k.Intact t → k.Nested t

variable {k k' : Crowd} {s' : System} {p p' q : Stage} {e : Event} {d : Deed} {c : CallId}
  {r : TransactionRef} {t : TransactionId} {name : LockName} {rule : Crowd → Deed → Prop}

namespace Reserved

/-- A transaction that a call uses and excludes all others has no lock request. -/
theorem not_requester (h : k.Reserved r) (ho : k.Orderly) (hq : k.stage? c = some q) :
    q.requester? ≠ some r := by
  intro hr
  have hu := Stage.user?_of_requester? hr
  obtain ⟨b, p, hp, hu'⟩ := h
  by_cases hbc : b = c
  · subst hbc
    obtain rfl := Option.some.inj (hp.symm.trans hq)
    exact absurd (hu.symm.trans hu') (by simp)
  · exact absurd (ho.apart_stage? hp hq hbc hu' hu) (by simp [Access.permits])

theorem follow (h : k.Reserved r) (ho : k.Orderly) (hc : k.going c = some p)
    (ha : Advance k.system p s' p') (hf : (s'.transactionAt r).state.isFinal = false) :
    (k.follow c s' p').Reserved r := by
  obtain ⟨b, q, hq, hu⟩ := h
  by_cases hb : b = c
  · subst hb
    obtain rfl := Option.some.inj ((stage?_of_going hc).symm.trans hq)
    rcases ha.keeps_exclusive (ho.inOrder b p hc) (ho.call b p hc) hu hf with
      ⟨hcall, hu'⟩ | ⟨j, hj, rfl, hx⟩
    · exact ⟨b, p', stage?_follow_of_call? (by simp [hcall]), hu'⟩
    · obtain ⟨q, hq, hu'⟩ := (ho.advance hc ha).exists_stage? hj
      exact ⟨b, q, hq, hx ▸ hu'⟩
  · exact ⟨b, q, (ho.stage?_follow_ne hc ha hb).trans hq, hu⟩

theorem of_follow (h : (k.follow c s' p').Reserved r) (ho : k.Orderly) (hc : k.going c = some p)
    (ha : Advance k.system p s' p') : k.Reserved r := by
  obtain ⟨b, q, hq, hu⟩ := h
  rcases ho.stage?_follow hc ha hq with ⟨-, hq⟩ | ⟨-, ⟨-, rfl⟩ | ⟨-, hsuspends⟩⟩
  · exact ⟨b, q, hq, hu⟩
  · have hsame := ha.user?_eq.resolve_right (by simp [hu])
    exact ⟨c, p, stage?_of_going hc, hsame.symm.trans hu⟩
  · exact ⟨c, p, stage?_of_going hc, hsuspends.user?.symm.trans hu⟩

theorem enter (h : k.Reserved r) (ho : k.Orderly) (hs : Start k.system e s' p)
    (hnew : ∀ c, p.call? = some c → k.going c = none)
    (hcan : (k.system.transactionAt r).state.canRollBack = true) : (k.enter s' p).Reserved r := by
  obtain ⟨b, q, hq, hu⟩ := h
  by_cases hb : p.call? = some b
  · -- The call has been in progress and goes on now.
    have hresumes : k.system.resumesAt b = some q := by
      rw [stage?, hnew b hb] at hq
      exact hq
    obtain ⟨j, hj, -, hju⟩ := ho.resting.resumesAt hresumes
    refine ⟨b, p, stage?_enter_self hb, ?_⟩
    cases ho.resting.raises hs with
    | nothing _ _ hp => exact absurd (hb.symm.trans hp.1) (by simp)
    | new _ _ hp =>
      obtain rfl := Option.some.inj (hb.symm.trans hp)
      exact absurd (ho.resting.fresh _ j hj) (Nat.lt_irrefl _)
    | call hk _ _ hp =>
      obtain ⟨hp, hpu⟩ := hp.resolve_right fun hp => absurd (hb.symm.trans hp.1) (by simp)
      obtain rfl := Option.some.inj (hb.symm.trans hp)
      obtain rfl := Option.some.inj (hj.symm.trans hk)
      exact hpu.trans (hju.symm.trans hu)
    | late _ _ hp => exact absurd (hb.symm.trans hp.1) (by simp)
  · refine ⟨b, q, ?_, hu⟩
    have hgoing : (k.enter s' p).going b = k.going b := if_neg hb
    rw [stage?, hgoing]
    rcases Option.or_eq_some_iff.mp hq with hq | ⟨hnone, hq⟩
    · rw [hq]
      rfl
    · rw [hnone]
      rcases hs.resumesAt_ne ho.waiting hb with hrest | ⟨-, hended⟩
      · exact hrest.trans hq
      · have hno := (hended _ hq).2 _ _ hu
        exact absurd (hno.symm.trans hcan) (by simp)

theorem of_enter (h : (k.enter s' p).Reserved r) (ho : k.Orderly) (hs : Start k.system e s' p) :
    k.Reserved r ∨ (k.system.transactionAt r).state.canRollBack = true := by
  obtain ⟨b, q, hq, hu⟩ := h
  rcases ho.stage?_enter hs hq with ⟨-, rfl⟩ | ⟨-, hq⟩
  · rcases hs.use ho.resting hu with he | hx | ⟨d, j, hj, rfl, hx⟩
    · exact .inr (hs.canRollBack he hu)
    · exact absurd hx (by simp)
    · obtain ⟨q, hq, hju⟩ := ho.exists_stage? hj
      exact .inl ⟨d, q, hq, hx ▸ hju⟩
  · exact .inl ⟨b, q, hq, hu⟩

end Reserved

/-- A transaction that is intact after an advance was so before. -/
theorem Intact.of_follow (h : (k.follow c s' p').Intact t) (hk : k.Accounted)
    (hc : k.going c = some p) (ha : Advance k.system p s' p') : k.Intact t := by
  refine ⟨h.1.imp ha.active fun hr => hr.of_follow hk.orderly hc ha, fun b q hq hfails => ?_⟩
  by_cases hb : b = c
  · subst hb
    obtain rfl := Option.some.inj ((stage?_of_going hc).symm.trans hq)
    have hreserved := h.1.resolve_left (hk.ne_active_of_fails hc hfails ha)
    obtain ⟨goal, error, rfl⟩ := (hk.fails_iff hq).mp hfails
    exact (hreserved.of_follow hk.orderly hc ha).not_requester hk.orderly hq rfl
  · exact h.2 b q ((hk.orderly.stage?_follow_ne hc ha hb).trans hq) hfails

/-- Nothing is asked of a transaction that has no lock and no lock request. -/
theorem Nested.of_bare (hno : ∀ c q, k.stage? c = some q → q.requester? ≠ some ⟨0, t⟩)
    (hbare : ∀ e, ¬ k.system.Holds t e) : k.Nested t where
  closed e he := absurd he (hbare e)
  planned c q _ hq hes := absurd (Stage.requester?_of_plan? hes) (hno c q hq)

namespace Contained

theorem orderly (h : Contained t k) : k.Orderly := h.accounted.orderly

/-! ### What deeds preserve -/

theorem advance (h : Contained t k) (hc : k.going c = some p) (ha : Advance k.system p s' p') :
    Contained t (k.follow c s' p') := by
  have hp := stage?_of_going hc
  have hafter := h.accounted.advance hc ha
  have hw := h.orderly.waitingAt hc
  refine ⟨hafter, ha.granularity.trans h.hierarchical, fun hs => ?_, fun hintact => ?_⟩
  · have hreserved : k.Reserved ⟨0, t⟩ := by
      by_cases hu : p.user? = some (⟨0, t⟩, .exclusive)
      · exact ⟨c, p, hp, hu⟩
      · exact h.committing (ha.state_before rfl (fun _ => hu) hs)
    exact hreserved.follow h.orderly hc ha (congrArg State.isFinal hs)
  have hn := h.nested (hintact.of_follow h.accounted hc ha)
  by_cases hf : (s'.transactionAt ⟨0, t⟩).state.isFinal = true
  · -- A call that excludes all others has not come to its end, but the transaction has no lock left.
    have hreserved := hintact.1.resolve_left fun hs =>
      absurd ((congrArg State.isFinal hs).symm.trans hf) (by simp [State.isFinal])
    have hno := fun b q => hreserved.not_requester (c := b) (q := q) hafter.orderly
    exact .of_bare hno fun a => hafter.not_has hf hno _
  have hkeep : ∀ a, k.system.Holds t a → s'.Holds t a := by
    intro a hold
    rcases ha.has_or_ended (h.orderly.inOrder c p hc) hold with
      hold | hfails | ⟨r, access, hu, rfl, hend⟩
    · exact hold
    · have hgoing : (k.follow c s' p').stage? c = some p' :=
        stage?_follow_of_call? hfails.call?_ne_none
      exact absurd hfails (hintact.2 c p' hgoing)
    · rw [h.accounted.ref_eq_of_user hp hu] at hend
      exact absurd hend hf
  have hplan := fun es => hn.planned c p es hp
  refine ⟨fun a hold b hb => hkeep b ?_, fun b q es hq hes => ?_⟩
  · rcases ha.has_or_looked hw hold with hold | ⟨_, r, _, _, goal, _, rfl, rfl⟩
    · exact hn.closed a hold b hb
    · -- It has just got the lock that came next.
      obtain ⟨x, rest, hname, rfl⟩ := h.accounted.plans c _ hp
      cases hname
      have hr := h.accounted.ref_eq_of_requester hp rfl
      have hordered : Ordered (k.system.Holds r.id) (a :: rest.map Need.entity) :=
        hplan _ (by rw [← hr]; rfl)
      exact hordered.1 b hb
  · rcases h.orderly.stage?_follow hc ha hq with ⟨-, hq⟩ | ⟨-, ⟨-, rfl⟩ | ⟨-, hsuspends⟩⟩
    · exact (hn.planned b q es hq hes).mono hkeep
    · obtain ⟨es₀, hes₀, rfl | ⟨a, rfl, hold⟩⟩ :=
        ha.plan? (h.orderly.inOrder c p hc) hw (h.accounted.plans c p hp) hes
      · exact (hplan _ hes₀).mono hkeep
      · refine (hplan _ hes₀).2.mono fun b hb => ?_
        rcases hb with hb | rfl
        · exact hkeep b hb
        · exact hold
    · exact (hplan _ (hsuspends.plan?.symm.trans hes)).mono hkeep

theorem start (h : Contained t k) (hd : k.Steadfast t (.event e)) (hadmits : k.Admits e)
    (hs : Start k.system e s' p) (hnew : ∀ c, p.call? = some c → k.going c = none) :
    Contained t (k.enter s' p) := by
  have ho := h.orderly.resting
  have hafter := h.accounted.start hd.1 hadmits hs hnew
  refine ⟨hafter, hs.granularity.trans h.hierarchical, fun hcommits => ?_, fun hintact => ?_⟩
  · rcases hs.stays_or_aborts ho ⟨0, t⟩ with hstate | ⟨-, hstate⟩
    · have hcommits := hstate.symm.trans hcommits
      exact (h.committing hcommits).enter h.orderly hs hnew (by rw [hcommits]; rfl)
    · exact absurd (hstate.symm.trans hcommits) (by simp)
  have hstays : ∀ {b q}, k.going b = some q → (k.enter s' p).stage? b = some q := by
    intro b q hq
    refine stage?_of_going (going_enter.mpr (.inr ⟨fun hb => ?_, hq⟩))
    exact absurd (hq.symm.trans (hnew b hb)) (by simp)
  have hbefore : k.Intact t := by
    refine ⟨?_, fun b q hq hfails => ?_⟩
    · rcases hintact.1 with hactive | hreserved
      · exact .inl (active_of_turns (.begins (hs.begins ho _)) hactive)
      · rcases hreserved.of_enter h.orderly hs with hreserved | hcan
        · exact .inr hreserved
        · cases hstate : (k.system.transactionAt ⟨0, t⟩).state with
          | active => exact .inl rfl
          | committing => exact .inr (h.committing hstate)
          | _ => exact absurd hcan (by simp [hstate, State.canRollBack])
    · rcases Option.or_eq_some_iff.mp hq with hgoing | ⟨-, hresumes⟩
      · exact hintact.2 b q (hstays hgoing) hfails
      · exact not_halfDone_of_resumesAt hresumes hfails.halfDone
  have hn := h.nested hbefore
  have hold : ∀ {a}, s'.Holds t a → k.system.Holds t a := fun {a} hi =>
    hi.imp ((hs.loosens hd.1 (.entity a)).owners t) ((hs.loosens hd.1 (.entity a)).upgraders t)
  by_cases hkeep : ∀ a, k.system.Holds t a → s'.Holds t a
  · refine ⟨fun a ha b hb => hkeep b (hn.closed a (hold ha) b hb), fun b q es hq hes => ?_⟩
    rcases h.orderly.stage?_enter hs hq with ⟨-, rfl⟩ | ⟨-, hq⟩
    · rcases hs.plan? hd.1 h.hierarchical hes with hordered | ⟨d, x, hresumes, hx⟩
      · exact hordered _
      · exact (hn.planned d x es (h.orderly.stage?_of_resumesAt hresumes) hx).mono hkeep
    · exact (hn.planned b q es hq hes).mono hkeep
  · -- Its locks have been released while no request of it was in progress, so it has none left.
    obtain ⟨a, ha, hlost⟩ : ∃ a, k.system.Holds t a ∧ ¬ s'.Holds t a := by
      simpa using hkeep
    obtain ⟨r, hr, he, hcall, rfl, hreleased⟩ := (hs.has_or_released hd.1 ha).resolve_left hlost
    rw [h.accounted.ref_eq hr] at he hreleased
    have hno := hd.2 he
    refine .of_bare (fun b q hq => ?_) fun b hb => ?_
    · rcases h.orderly.stage?_enter hs hq with ⟨hb, -⟩ | ⟨-, hq⟩
      · exact absurd (hb.symm.trans hcall) (by simp)
      · exact hno b q hq
    · exact hreleased _ hb (h.accounted.listed_of_has hno (hold hb))

theorem release (h : Contained t k) (hd : k.Steadfast t (.release r name))
    (hne : (k.system.transactionAt r).state ≠ .active) (hl : name ∈ k.system.locks) :
    Contained t ⟨k.system.release r.id name, k.going⟩ := by
  have hstage : ∀ {b}, Crowd.stage? ⟨k.system.release r.id name, k.going⟩ b = k.stage? b :=
    stage?_release
  have hreserved : Reserved ⟨k.system.release r.id name, k.going⟩ ⟨0, t⟩ ↔ k.Reserved ⟨0, t⟩ := by
    simp only [Reserved, hstage]
  refine ⟨h.accounted.release hl, h.hierarchical, fun hs => hreserved.mpr (h.committing hs),
    fun hintact => ?_⟩
  have hbefore : k.Intact t :=
    ⟨hintact.1.imp_right hreserved.mp, fun c q hq => hintact.2 c q (hstage.trans hq)⟩
  have hn := h.nested hbefore
  have hid : r = ⟨0, r.id⟩ := by
    refine h.accounted.ref_eq (not_not.mp fun hr => ?_)
    rw [transactionAt_of_not_mem hr] at hne
    exact hne rfl
  have hkeep : ∀ b, (r = ⟨0, t⟩ → name ≠ .entity b) → k.system.Holds t b →
      (k.system.release r.id name).Holds t b := by
    intro b hname hb
    by_cases htr : t = r.id
    · have hsame := lockAt_modifyLock_ne (s := k.system) (f := (Lock.release · r.id))
        (hname (by rw [hid, htr])).symm
      exact (congrArg (Lock.Has · t) hsame).mpr hb
    · exact has_modifyLock_of_has (f := (Lock.release · r.id)) hb fun h =>
        Lock.has_release.mpr ⟨htr, h⟩
  by_cases hr : r = ⟨0, t⟩
  · subst hr
    have hno := fun c q => (hbefore.1.resolve_left hne).not_requester (c := c) (q := q) h.orderly
    refine ⟨fun a ha b hb => ?_, fun c q es hq hes => ?_⟩
    · have ha := (has_release ha).1
      refine hkeep b (fun _ hname => ?_) (hn.closed a ha b hb)
      obtain ⟨x, hx, hxa⟩ := Transaction.mem_lockedNames.mp (h.accounted.listed_of_has hno ha)
      cases hxa
      exact hd rfl b hname a hx hb ha
    · exact absurd (Stage.requester?_of_plan? hes) (hno c q (hstage.symm.trans hq))
  · have hkeep := fun b => hkeep b fun h => absurd h hr
    exact ⟨fun a ha b hb => hkeep b (hn.closed a (has_release ha).1 b hb), fun c q es hq hes =>
      (hn.planned c q es (hstage.symm.trans hq) hes).mono hkeep⟩

theorem step (h : Contained t k) (hd : k.Steadfast t d) (hs : k.Step d k') : Contained t k' := by
  cases hs with
  | event ha hs hp => exact h.start hd ha hs hp
  | advance hc ha => exact h.advance hc ha
  | release hne hl => exact h.release hd hne hl
  | number =>
    exact ⟨h.accounted.step (d := .number) trivial .number, h.hierarchical, h.committing,
      fun hintact => ⟨(h.nested hintact).closed, (h.nested hintact).planned⟩⟩

theorem fresh (config lockConfig : Config) (t : TransactionId) :
    Contained t (still (System.new .hierarchical [config] lockConfig)) := by
  have hno : ∀ c q, (still (System.new .hierarchical [config] lockConfig)).stage? c = some q →
      q.requester? ≠ some ⟨0, t⟩ := by simp [stage?_new]
  refine ⟨.fresh _ config lockConfig, rfl, fun hs => ?_, fun _ => .of_bare hno fun a ha => ?_⟩
  · have hs : ((System.new .hierarchical [config] lockConfig).transactionAt ⟨0, t⟩).state =
      .committing := hs
    rw [transactionAt_new] at hs
    exact absurd hs (by simp [default])
  · have ha : ((System.new .hierarchical [config] lockConfig).lockAt (.entity a)).Has t := ha
    rw [lockAt_new] at ha
    exact Lock.not_has_default ha

theorem leads (hk : Leads (Steadfast t) k k') (h : Contained t k) : Contained t k' :=
  hk.preserve h fun h hd hs => h.step hd hs

end Contained

end Crowd

end Locking
