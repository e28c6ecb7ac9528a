import Locking.Proofs.Commit.Outcome
import Locking.Proofs.System.Attended

/-! One manager whose transactions make one lock request at a time.  Every request that is asleep
and has not been notified is tracked by the wait-for graph, unless its transaction has no lock, and
the graph has no cycle. -/

namespace Locking

/-- Whether an event enters transactions into the wait-for graph or drops them from it. -/
def Event.usesGraph : Event → Bool
  | wait .. | stopWaiting .. | removeWaits .. => true
  | _ => false

/-- The transaction that asks for locks. -/
def Event.asker? : Event → Option TransactionRef
  | lock r .. | lockAll r .. => some r
  | _ => none

/-- The transaction whose lock request goes on. -/
def Stage.requester? : Stage → Option TransactionRef
  | taking _ r .. | looking _ r .. | granted _ r .. | failed _ r .. => some r
  | _ => none

/-- Transaction number `i` has been asleep and is about to look again. -/
def Stage.Rises : Stage → TransactionId → Prop
  | looking _ r _ _ _ _ w, i => w = true ∧ r.id = i
  | _, _ => False

/-- A lock request of transaction number `i` has failed. -/
def Stage.Fails : Stage → TransactionId → Prop
  | failed _ r .., i => r.id = i
  | _, _ => False

/-- Whether transaction number `i` has been asleep on a lock and is about to look at it again, in
order to upgrade. -/
def Stage.Awakes : Stage → LockName → TransactionId → Prop
  | looking _ r other kind _ _ w, name, i => other = name ∧ Lock.Awaits r.id kind w i
  | _, _, _ => False

/-- A transaction is active, or somebody has interrupted it. -/
def Transaction.Live (t : Transaction) : Prop := t.state = .active ∨ t.isInterrupted = true

namespace System

/-- Locks are asked for and released through their transactions only, and no transaction asks for
locks while a request of it is asleep. -/
def OneRequest (s : System) (e : Event) : Prop :=
  e.usesLock = false ∧ e.usesGraph = false ∧ ∀ r, e.asker? = some r → ∀ (c : CallId) (k : Call),
    s.calls[c]? = some k → k.transaction = r → k.point.isAsleep = false

instance (s : System) (e : Event) : Decidable (s.OneRequest e) :=
  decidable_of_iff (e.usesLock = false ∧ e.usesGraph = false ∧ ∀ r ∈ e.asker?.toList,
    ∀ entry ∈ s.calls.toList, entry.2.transaction = r → entry.2.point.isAsleep = false) <| by
    refine and_congr_right fun _ => and_congr_right fun _ => ?_
    simp only [Option.mem_toList, Prod.forall,
      Std.ExtTreeMap.mem_toList_iff_getElem?_eq_some]

/-- A transaction number has no lock and waits to upgrade none. -/
def Bare (s : System) (i : TransactionId) : Prop := ∀ name, ¬ (s.lockAt name).Has i

/-- What a lock request that goes on knows of its transaction and of the lock. -/
def Ready (s : System) : Stage → Prop
  | .taking _ r .. | .granted _ r .. => (s.transactionAt r).state = .active
  | .looking _ r name kind _ _ w =>
    (s.transactionAt r).Live ∧ (s.lockAt name).Meets r.id kind w
  | _ => True

/-- What holds of the waiters of all locks and of the wait-for graph. -/
structure Watched (s : System) (p : Stage) : Prop where
  alone : ∀ name other, ∀ v ∈ (s.lockAt name).waiters, ∀ w ∈ (s.lockAt other).waiters,
    v.transaction = w.transaction → v.call = w.call
  awake : ∀ r, p.requester? = some r → ∀ name, ∀ v ∈ (s.lockAt name).waiters,
    v.transaction ≠ r.id
  live : ∀ name, ∀ v ∈ (s.lockAt name).waiters, (s.transactionAt ⟨0, v.transaction⟩).Live
  ready : s.Ready p
  attended : ∀ name, (s.lockAt name).Attended s.graph.Waits s.Bare (p.Awakes name)
  acyclic : s.graph.Acyclic

variable {s s' : System} {p p' : Stage} {e : Event} {r q : TransactionRef} {c : CallId}
  {name other : LockName} {hs : History}

theorem live_modifyTransaction {f : Transaction → Transaction} (h : (s.transactionAt q).Live)
    (hf : ∀ t : Transaction, t.Live → (f t).Live) :
    ((s.modifyTransaction r f).transactionAt q).Live :=
  rel_modifyTransaction (R := fun t t' => t.Live → t'.Live) (fun _ => id) hf h

/-- A transaction stays live if it changes its state after it was active no more. -/
theorem live_setState {state : State} (hne : (s.transactionAt r).state ≠ .active)
    (h : (s.transactionAt q).Live) : ((s.setState r state).transactionAt q).Live := by
  by_cases hq : q = r
  · subst hq
    have hsame : ((s.setState q state).transactionAt q).isInterrupted =
        (s.transactionAt q).isInterrupted :=
      view_modifyTransaction Transaction.isInterrupted fun _ => rfl
    exact .inr (hsame.trans (h.resolve_left hne))
  · rwa [setState, transactionAt_modifyTransaction_ne hq]

theorem Waiting.not_mem_waiters (h : Waiting s p) (ho : InOrder s p) (hr : Recorded s p)
    (hmem : r ∈ s.transactions) (hno : ∀ (c : CallId) (k : Call), s.calls[c]? = some k →
      k.transaction = r → k.point.isAsleep = false) (name : LockName) :
    ∀ v ∈ (s.lockAt name).waiters, v.transaction ≠ r.id := by
  intro v hv hvr
  obtain ⟨d, goal, hk⟩ := h.call_of_waiter ho hr.single hv
  have hid : ⟨0, v.transaction⟩ = r := hvr ▸ (hr.ref_eq ho hmem).symm
  exact absurd (hno _ _ hk hid) (by simp [Point.isAsleep])

/-- No request is asleep for a transaction that is in exclusive use. -/
theorem InOrder.isAsleep_eq_false (ho : InOrder s p)
    (ha : ∀ (c : CallId) (k : Call), s.calls[c]? = some k → k.transaction = r →
      k.access.permits .exclusive = true) (c : CallId) (k : Call) (hk : s.calls[c]? = some k)
    (ht : k.transaction = r) : k.point.isAsleep = false := by
  have hpermits := ha c k hk ht
  have hsuited := ho.suited c k hk
  obtain ⟨q, access, point⟩ := k
  cases point with
  | waiting =>
    obtain rfl : access = .shared := hsuited
    exact absurd hpermits (by simp [Access.permits])
  | _ => rfl

theorem Advance.requester? (ha : Advance s p s' p') (hr : p'.requester? = some r) :
    p.requester? = some r := by
  cases ha <;> first | exact hr | exact absurd hr (by simp [Stage.requester?])

/-! ### Edges of the wait-for graph -/

section Edges

variable {i j : TransactionId}

/-- An edge of the graph was there before an advance, and not about a request that has looked again;
or it leads from a request that falls asleep to somebody who is in its way, and the transaction of the
request was not interrupted. -/
theorem Advance.waits_or_blocked (ha : Advance s p s' p') (hij : s'.graph.Waits i j) :
    s.graph.Waits i j ∧ ¬ p.Rises i ∨ ∃ c r name kind d goal w,
      p = .looking c r name kind d goal w ∧ p'.call? = none ∧ r.id = i ∧
      (s.transactionAt r).isInterrupted = false ∧
      j ∈ ((s.lockAt name).approach r.id kind w).blockers r.id kind := by
  have hretired : ∀ {r state}, ((s.setState r state).retire r).graph.Waits i j →
      s.graph.Waits i j := fun h => (waits_retire.mp h).2.2
  have hleft : ∀ {c : CallId} {r : TransactionRef} {kind : Request} {d : Deadline} {w : Bool}
      {g : WaitForGraph}, ((s.attempt c r kind d w).leave g).Waits i j →
        g.Waits i j ∧ ¬ (w = true ∧ r.id = i) := fun h =>
    ⟨(Attempt.waits_leave h).1, fun ⟨hw, hr⟩ => (Attempt.waits_leave h).2 hw hr⟩
  cases ha with
  | @sleep c r name kind d goal w g hj =>
    obtain ⟨hi, -, -, hwait⟩ := Attempt.judge_eq_sleeps_iff.mp hj
    have hnew := (WaitForGraph.waits_of_wait_ok hwait).mp hij
    split at hnew
    · next hri => exact .inr ⟨c, r, name, kind, d, goal, w, rfl, rfl, hri.symm, hi, hnew.2⟩
    · next hri => exact .inl ⟨hnew, fun hr => hri hr.2.symm⟩
  | grant hj =>
    obtain ⟨-, -, rfl⟩ := Attempt.judge_eq_granted_iff.mp hj
    exact .inl (hleft hij)
  | fail hj => exact .inl ((hleft hij).imp_left (Attempt.waits_of_failed hj))
  | giveBack => exact .inl ⟨(WaitForGraph.waits_remove.mp hij).2.2, id⟩
  | undone | committed => exact .inl ⟨hretired hij, id⟩
  | removed =>
    rw [graph_alert] at hij
    exact .inl ⟨hretired hij, id⟩
  | _ => exact .inl ⟨hij, id⟩

/-- Unless the graph is used directly, no edge of it arises before a call goes on. -/
theorem Start.waits (he : e.usesGraph = false) (hst : Start s e s' p) (hij : s'.graph.Waits i j) :
    s.graph.Waits i j := by
  cases hst with
  | wait | stopWaiting | removeWaits => exact absurd he (by simp [Event.usesGraph])
  | release => exact (WaitForGraph.waits_remove.mp hij).2.2
  | interrupt | managerInterrupt =>
    rw [System.interrupt, graph_alert] at hij
    exact hij
  | unlockAll => exact (waits_releaseAll.mp hij).1
  | forget => exact (waits_forget.mp hij).2.2
  | _ => exact hij

end Edges

namespace Watched

/-! ### Frames -/

/-- No request has fallen asleep or woken up. -/
theorem frame (h : Watched s p) (hs : s.Steady s')
    (hawake : ∀ r, p'.requester? = some r → ∀ name, ∀ v ∈ (s.lockAt name).waiters,
      v.transaction ≠ r.id)
    (hlive : ∀ name, ∀ v ∈ (s.lockAt name).waiters, (s.transactionAt ⟨0, v.transaction⟩).Live →
      (s'.transactionAt ⟨0, v.transaction⟩).Live)
    (hready : s'.Ready p')
    (hat : ∀ name, (s'.lockAt name).Attended s'.graph.Waits s'.Bare (p'.Awakes name))
    (hg : s'.graph.Acyclic) : Watched s' p' := by
  have hold : ∀ name, ∀ v ∈ (s'.lockAt name).waiters, ∃ u ∈ (s.lockAt name).waiters,
      u.call = v.call ∧ u.transaction = v.transaction := by
    intro name v hv
    obtain ⟨u, hu, hkey⟩ := (hs name).mem_waiters hv
    obtain ⟨hcall, ht, -⟩ : u.call = v.call ∧ u.transaction = v.transaction ∧
        u.request = v.request := by simpa [Waiter.key] using hkey
    exact ⟨u, hu, hcall, ht⟩
  refine ⟨?_, ?_, ?_, hready, hat, hg⟩
  · intro name other v hv w hw ht
    obtain ⟨v', hv', hcall, htv⟩ := hold name v hv
    obtain ⟨w', hw', hcall', htw⟩ := hold other w hw
    rw [← hcall, ← hcall']
    exact h.alone name other v' hv' w' hw' (by rw [htv, htw, ht])
  · intro r hr name v hv
    obtain ⟨u, hu, -, ht⟩ := hold name v hv
    rw [← ht]
    exact hawake r hr name u hu
  · intro name v hv
    obtain ⟨u, hu, -, ht⟩ := hold name v hv
    have := hlive name u hu (h.live name u hu)
    rwa [ht] at this

theorem still (h : Watched s p) (hl : ∀ name, s'.lockAt name = s.lockAt name)
    (hg : s'.graph = s.graph)
    (hawake : ∀ r, p'.requester? = some r → ∀ name, ∀ v ∈ (s.lockAt name).waiters,
      v.transaction ≠ r.id)
    (hlive : ∀ name, ∀ v ∈ (s.lockAt name).waiters, (s.transactionAt ⟨0, v.transaction⟩).Live →
      (s'.transactionAt ⟨0, v.transaction⟩).Live)
    (hready : s'.Ready p') (ha : ∀ name i, p.Awakes name i → p'.Awakes name i) :
    Watched s' p' := by
  refine h.frame (fun name => by rw [hl]; exact .refl _) hawake hlive hready (fun name => ?_)
    (hg ▸ h.acyclic)
  rw [hl, hg]
  refine (h.attended name).mono (fun v _ u _ hw => .inl hw) (fun v _ hb other => ?_)
    fun i _ => ha name i
  rw [hl]
  exact hb other

theorem quiet (h : Watched s p) (hl : ∀ name, s'.lockAt name = s.lockAt name)
    (hg : s'.graph = s.graph) (hp : p'.requester? = none)
    (hlive : ∀ name, ∀ v ∈ (s.lockAt name).waiters, (s.transactionAt ⟨0, v.transaction⟩).Live →
      (s'.transactionAt ⟨0, v.transaction⟩).Live)
    (ha : ∀ name i, ¬ p.Awakes name i) : Watched s' p' := by
  refine h.still hl hg (by simp [hp]) hlive ?_ fun name i hi => absurd hi (ha name i)
  cases p' with
  | taking | looking | granted | failed => exact absurd hp (by simp [Stage.requester?])
  | _ => trivial

/-- Between two events, or in the course of a call that looks at no lock again. -/
theorem attended_asleep (h : Watched s p) (hp : ∀ name i, ¬ p.Awakes name i) (name : LockName) :
    (s.lockAt name).Attended s.graph.Waits s.Bare fun _ => False :=
  (h.attended name).mono (fun _ _ _ _ hw => .inl hw) (fun _ _ hb => hb) fun i _ ha => hp name i ha

theorem notified (h : Watched s idle) (name : LockName) :
    Watched (s.modifyLock name Lock.notify) idle := by
  have hbare : ∀ i, s.Bare i → (s.modifyLock name Lock.notify).Bare i := by
    intro i hb other hi
    rcases has_modifyLock hi with ⟨hi, -⟩ | ⟨rfl, hi⟩
    · exact hb other hi
    · exact hb other (Lock.has_notify.mp hi)
  refine h.frame (Lock.Steady.lenient.modifyLock fun _ => .notify _) (by simp [Stage.requester?])
    (fun _ _ _ hl => hl) trivial (fun other => ?_) h.acyclic
  by_cases hn : other = name ∧ name ∈ s.locks
  · obtain ⟨rfl, hl⟩ := hn
    rw [lockAt_modifyLock_self hl]
    exact (h.attended other).notify
  · have hat : (s.modifyLock name Lock.notify).lockAt other = s.lockAt other := by
      by_cases hl : name ∈ s.locks
      · exact lockAt_modifyLock_ne fun ho => hn ⟨ho, hl⟩
      · exact modifyLock_of_not_mem hl
    rw [hat]
    exact (h.attended other).mono (fun _ _ _ _ hw => .inl hw) (fun _ _ => hbare _) fun _ _ => id

theorem alerted (h : Watched s idle) (r : TransactionRef) : Watched (s.alert r) idle := by
  obtain heq | ⟨name, heq⟩ := alert_eq s r
  · rwa [heq]
  · rw [heq]
    exact h.notified name

/-- A transaction has released its lock set, and with it all that it had. -/
theorem released (h : Watched s p) (hr : Recorded s p) (hq : r = ⟨0, r.id⟩)
    (hgranted : p.granted? = none) (hp : ∀ name i, ¬ p.Awakes name i)
    (hl : ∀ name, s'.lockAt name = if name ∈ (s.transactionAt r).lockedNames
      then (s.lockAt name).release r.id else s.lockAt name)
    (hsub : ∀ a b, s'.graph.Waits a b → s.graph.Waits a b)
    (hkeep : ∀ a b, a ≠ r.id → b ≠ r.id → s.graph.Waits a b → s'.graph.Waits a b)
    (hlive : ∀ q, (s.transactionAt q).Live → (s'.transactionAt q).Live) : Watched s' idle := by
  have hlost : ∀ name, name ∉ (s.transactionAt r).lockedNames → ¬ (s.lockAt name).Has r.id :=
    fun name hn hi => hn (hq ▸ hr.listed_of_has hgranted hi)
  have hhas : ∀ {name i}, (s'.lockAt name).Has i → i ≠ r.id ∧ (s.lockAt name).Has i := by
    intro name i hi
    rw [hl] at hi
    split at hi
    · exact Lock.has_release.mp hi
    · next hn => exact ⟨fun hir => hlost name hn (hir ▸ hi), hi⟩
  refine h.frame (fun name => ?_) (by simp [Stage.requester?]) (fun _ _ _ => hlive _)
    trivial (fun name => ?_) (h.acyclic.mono hsub)
  · rw [hl]
    split
    · exact .release _ _
    · exact .refl _
  · rw [hl]
    split
    · exact (h.attended_asleep hp name).release r.id
    · next hn =>
      refine (h.attended_asleep hp name).mono (fun v _ u hu hwait => ?_)
        (fun v _ hb other hi => hb other (hhas hi).2) fun _ _ => id
      have hur : u ≠ r.id := fun hur => hlost name hn (hur ▸ hu)
      by_cases hvr : v.transaction = r.id
      · exact .inr fun other hi => (hhas hi).1 hvr
      · exact .inl (hkeep _ _ hvr hur hwait)

/-! ### A request that looks at a lock -/

section Look

variable {kind : Request} {d : Deadline} {goal : Goal} {w : Bool} {g : WaitForGraph}
  {f : Lock → Lock}

/-- A request that goes on without having been interrupted belongs to an active transaction. -/
theorem active_of_look (h : Watched s (.looking c r name kind d goal w))
    (hi : (s.transactionAt r).isInterrupted = false) : (s.transactionAt r).state = .active := by
  refine h.ready.1.resolve_right fun hint => ?_
  rw [hi] at hint
  exact absurd hint (by simp)

/-- The other locks when a request has looked at one. -/
theorem looked (h : Watched s (.looking c r name kind d goal w))
    (hself : s'.lockAt name = f (s.lockAt name))
    (hother : ∀ other, other ≠ name → s'.lockAt other = s.lockAt other)
    (hkeep : ∀ a b, a ≠ r.id → s.graph.Waits a b → s'.graph.Waits a b)
    (hhas : ∀ j, j ≠ r.id → (f (s.lockAt name)).Has j → (s.lockAt name).Has j)
    (hat : (∀ j, j ≠ r.id → s.Bare j → s'.Bare j) →
      (f (s.lockAt name)).Attended s'.graph.Waits s'.Bare fun _ => False) (other : LockName) :
    (s'.lockAt other).Attended s'.graph.Waits s'.Bare fun _ => False := by
  have hbare : ∀ j, j ≠ r.id → s.Bare j → s'.Bare j := by
    intro j hj hb other hi
    by_cases hn : other = name
    · subst hn
      rw [hself] at hi
      exact hb other (hhas j hj hi)
    · rw [hother other hn] at hi
      exact hb other hi
  by_cases hn : other = name
  · rw [hn, hself]
    exact hat hbare
  · rw [hother other hn]
    have hne := h.awake r rfl other
    exact (h.attended other).mono (fun v hv u _ hwait => .inl (hkeep _ _ (hne v hv) hwait))
      (fun v hv => hbare _ (hne v hv)) fun _ _ ha => hn ha.1.symm

theorem attended_looked (h : Watched s (.looking c r name kind d goal w)) :
    (s.lockAt name).Attended s.graph.Waits s.Bare (Lock.Awaits r.id kind w) :=
  (h.attended name).mono (fun _ _ _ _ hw => .inl hw) (fun _ _ hb => hb) fun _ _ ha => ha.2

theorem waits_leave {a b : TransactionId} (hne : a ≠ r.id) :
    ((s.attempt c r kind d w).leave g).Waits a b ↔ g.Waits a b := by
  unfold Attempt.leave
  split
  · exact WaitForGraph.waits_stopWaiting.trans (and_iff_right hne)
  · exact Iff.rfl

theorem acyclic_leave (h : g.Acyclic) (a : Attempt) : (a.leave g).Acyclic := by
  unfold Attempt.leave
  split
  · exact h.stopWaiting _
  · exact h

theorem sleep (h : Watched s (.looking c r name kind d goal w)) (hw : Waiting s
      (.looking c r name kind d goal w))
    (hid : r = ⟨0, r.id⟩)
    (hj : (s.attempt c r kind d w).judge ((s.lockAt name).approach r.id kind w) s.graph =
      (g, .sleeps)) :
    Watched (((s.modifyLock name fun l => (l.approach r.id kind w).park c r.id kind).setGraph
      g).suspend c ⟨r, .shared, .waiting name d goal⟩) (.concluded (.asleep c)) := by
  obtain ⟨-, hg, -, hwait⟩ := Attempt.judge_eq_sleeps_iff.mp hj
  obtain ⟨hlive, hmeets⟩ := h.ready
  have hl : name ∈ s.locks := hw.looked _ rfl
  have hself := lockAt_modifyLock_self (f := fun l => (l.approach r.id kind w).park c r.id kind) hl
  have hother : ∀ other, other ≠ name → (s.modifyLock name fun l =>
      (l.approach r.id kind w).park c r.id kind).lockAt other = s.lockAt other :=
    fun other hn => lockAt_modifyLock_ne hn
  have hmem : ∀ {other v}, v ∈ ((s.modifyLock name fun l =>
      (l.approach r.id kind w).park c r.id kind).lockAt other).waiters →
        v ∈ (s.lockAt other).waiters ∨ v.transaction = r.id ∧ v.call = c := by
    intro other v hv
    by_cases hn : other = name
    · subst hn
      rw [hself] at hv
      rcases List.mem_append.mp hv with hv | hv
      · exact .inl (by simpa using hv)
      · rw [List.mem_singleton.mp hv]
        exact .inr ⟨rfl, rfl⟩
    · rw [hother other hn] at hv
      exact .inl hv
  have hawake := h.awake r rfl
  have hwaits : ∀ a b, g.Waits a b ↔ if a = r.id then
      b ≠ r.id ∧ b ∈ ((s.lockAt name).approach r.id kind w).blockers r.id kind
        else s.graph.Waits a b := fun a b => WaitForGraph.waits_of_wait_ok hwait
  refine ⟨fun n₁ n₂ v hv u hu ht => ?_, by simp [Stage.requester?], fun other v hv => ?_, trivial,
    ?_, ?_⟩
  · rcases hmem hv with hv | ⟨hvr, hvc⟩ <;> rcases hmem hu with hu | ⟨hur, huc⟩
    · exact h.alone n₁ n₂ v hv u hu ht
    · exact absurd (ht.trans hur) (hawake n₁ v hv)
    · exact absurd (ht.symm.trans hvr) (hawake n₂ u hu)
    · exact hvc.trans huc.symm
  · show (s.transactionAt ⟨0, v.transaction⟩).Live
    rcases hmem hv with hv | ⟨hvr, -⟩
    · exact h.live other v hv
    · rwa [hvr, ← hid]
  · refine h.looked (f := fun l => (l.approach r.id kind w).park c r.id kind) hself hother
      (fun a b hne hab => (hwaits a b).mpr (by rwa [if_neg hne])) (fun j hj hi => ?_)
      fun hbare => ?_
    · exact (Lock.has_approach (Lock.has_park.mp hi)).resolve_right fun hjr => hj hjr.1
    · exact h.attended_looked.sleep hmeets (hawake name) hg hwaits hbare
  · have hacyclic := h.acyclic.wait r.id
      (((s.lockAt name).approach r.id kind w).blockers r.id kind)
    have heq : (s.graph.wait r.id
      (((s.lockAt name).approach r.id kind w).blockers r.id kind)).1 = g := congrArg Prod.fst hwait
    rwa [heq] at hacyclic

/-- A request has come to its end, and its transaction waits for nobody any more. -/
theorem answered (h : Watched s (.looking c r name kind d goal w))
    (hw : Waiting s (.looking c r name kind d goal w))
    (hs : (s.lockAt name).Steady (f (s.lockAt name))) (hg : g.Acyclic)
    (hkeep : ∀ a b, a ≠ r.id → s.graph.Waits a b → g.Waits a b)
    (hhas : ∀ j, j ≠ r.id → (f (s.lockAt name)).Has j → (s.lockAt name).Has j)
    (hat : ∀ waits' bare', (∀ a b, a ≠ r.id → s.graph.Waits a b → waits' a b) →
      (∀ j, j ≠ r.id → s.Bare j → bare' j) →
        (f (s.lockAt name)).Attended waits' bare' fun _ => False)
    (hreq : p'.requester? = some r)
    (hready : (((s.modifyLock name f).setGraph ((s.attempt c r kind d w).leave g)).setWaitingOn r
      none).Ready p') :
    Watched (((s.modifyLock name f).setGraph ((s.attempt c r kind d w).leave g)).setWaitingOn r
      none) p' := by
  have hl : name ∈ s.locks := hw.looked _ rfl
  have hsteady : s.Steady (s.modifyLock name f) := Lock.Steady.lenient.modifyLock fun _ => hs
  have hleave : ∀ a b, a ≠ r.id → s.graph.Waits a b →
      ((s.attempt c r kind d w).leave g).Waits a b :=
    fun a b hne hab => (waits_leave hne).mpr (hkeep a b hne hab)
  refine h.frame hsteady (fun q hq => ?_) (fun _ _ _ hl => ?_) hready (fun other => ?_)
    (acyclic_leave hg _)
  · obtain rfl : r = q := Option.some.inj (hreq.symm.trans hq)
    exact h.awake r rfl
  · exact live_modifyTransaction hl fun _ => id
  · have hself : (((s.modifyLock name f).setGraph
        ((s.attempt c r kind d w).leave g)).setWaitingOn r none).lockAt name =
          f (s.lockAt name) := lockAt_modifyLock_self hl
    refine (h.looked hself (fun _ hn => lockAt_modifyLock_ne hn) hleave hhas (hat _ _ hleave)
      other).mono ?_ ?_ ?_
    · exact fun _ _ _ _ hwait => .inl hwait
    · exact fun _ _ hb => hb
    · exact fun _ _ hno => hno.elim

theorem grant (h : Watched s (.looking c r name kind d goal w))
    (hw : Waiting s (.looking c r name kind d goal w))
    (hj : (s.attempt c r kind d w).judge ((s.lockAt name).approach r.id kind w) s.graph =
      (g, .granted)) :
    Watched (((s.modifyLock name fun l => (l.approach r.id kind w).grant r.id kind).setGraph
      ((s.attempt c r kind d w).leave g)).setWaitingOn r none) (.granted c r d goal w) := by
  obtain ⟨hi, hg, rfl⟩ := Attempt.judge_eq_granted_iff.mp hj
  obtain ⟨hlive, hmeets⟩ := h.ready
  have hone : ∀ u ∈ (s.lockAt name).waiters, ∀ v ∈ (s.lockAt name).waiters,
      u.transaction = v.transaction → u = v := fun u hu v hv ht =>
    (hw.sound name).waiter_eq hu hv (h.alone name name u hu v hv ht)
  refine h.answered hw ((Lock.Steady.approach _ _ _ _).trans (.grant hg)) h.acyclic
    (fun _ _ _ => id) (fun j hne hj => ?_) (fun _ _ hkeep hbare => ?_) rfl ?_
  · apply (Lock.has_approach ((Lock.has_grant hj).resolve_right hne)).resolve_right
    exact fun hjr => hne hjr.1
  · exact h.attended_looked.grant hmeets (h.awake r rfl name) (hw.sound name) hg hone hkeep hbare
  · -- A transaction that is live and was not interrupted is active.
    have hactive : (s.transactionAt r).state = .active := hlive.resolve_right fun hint => by
      have hi : (s.transactionAt r).isInterrupted = false := hi
      rw [hi] at hint
      exact absurd hint (by simp)
    exact state_setWaitingOn.trans hactive

theorem fail {error : Error} (h : Watched s (.looking c r name kind d goal w))
    (hw : Waiting s (.looking c r name kind d goal w))
    (hj : (s.attempt c r kind d w).judge ((s.lockAt name).approach r.id kind w) s.graph =
      (g, .failed error)) :
    Watched (((s.modifyLock name fun l => (l.approach r.id kind w).abandon r.id).setGraph
      ((s.attempt c r kind d w).leave g)).setWaitingOn r none) (.failed c r goal error) := by
  have hgraph : g = s.graph ∨ g = s.graph.stopWaiting r.id := Attempt.graph_of_failed hj
  have hkeep : ∀ a b, a ≠ r.id → s.graph.Waits a b → g.Waits a b := by
    intro a b hne hab
    rcases hgraph with rfl | rfl
    · exact hab
    · exact WaitForGraph.waits_stopWaiting.mpr ⟨hne, hab⟩
  have hacyclic : g.Acyclic := by
    rcases hgraph with rfl | rfl
    · exact h.acyclic
    · exact h.acyclic.stopWaiting _
  refine h.answered hw ((Lock.Steady.approach _ _ _ _).trans (.abandon _ _)) hacyclic hkeep
    (fun j hne hj => ?_) (fun _ _ hkeep hbare => ?_) rfl trivial
  · apply (Lock.has_approach (Lock.has_abandon hj)).resolve_right
    exact fun hjr => hne hjr.1
  · exact h.attended_looked.fail (h.awake r rfl name) hkeep hbare

end Look

/-! ### Advances and starts -/

/-- What a request that is made of a lock finds there. -/
theorem meets_of_request {kind : Request} {mode : LockMode} {l : Lock} {i : TransactionId}
    (hs : l.Sound) (hk : Request.of? (l.modeOf i) mode = some kind) : l.Meets i kind false where
  holds _ hupgrade := by
    subst hupgrade
    by_cases hi : i ∈ l.owners
    · refine ⟨hi, ?_⟩
      rw [Lock.modeOf, if_pos hi] at hk
      revert hk
      cases l.mode with
      | none => cases mode <;> simp [Request.of?]
      | some held => cases held <;> cases mode <;> simp [Request.of?]
    · rw [Lock.modeOf, if_neg hi] at hk
      cases mode <;> exact absurd hk (by simp [Request.of?])
  lacks hkind hi := by
    have hkind : kind ≠ .upgrade := hkind.resolve_left (by simp)
    rw [Lock.modeOf, if_pos hi] at hk
    revert hk
    cases hm : l.mode with
    | none => exact absurd hi (hs.mode_eq_none.mp hm i)
    | some held => cases held <;> cases mode <;> simp [Request.of?, eq_comm, hkind]

theorem state_ne_active {task : Phase × List Store} (hl : Ledger s p hs)
    (hp : p.task? = some (c, r, task)) : (s.transactionAt r).state ≠ .active := by
  obtain ⟨phase, rest⟩ := task
  rw [((hl.entry r).going c phase rest hp).1]
  cases phase <;> simp [Phase.state]

theorem retired (h : Watched s p) (hr : Recorded s p) (hmem : r ∈ s.transactions)
    (hq : r = ⟨0, r.id⟩) (hgranted : p.granted? = none) (hp : ∀ name i, ¬ p.Awakes name i)
    (hne : (s.transactionAt r).state ≠ .active) (state : State) :
    Watched ((s.setState r state).retire r) idle := by
  have hset : ((s.setState r state).transactionAt r).lockSet = (s.transactionAt r).lockSet :=
    view_modifyTransaction Transaction.lockSet fun _ => rfl
  refine h.released hr hq hgranted hp (fun name => ?_) (fun a b hab => (waits_retire.mp hab).2.2)
    (fun a b ha hb hab => waits_retire.mpr ⟨ha, hb, hab⟩) fun q hlive => ?_
  · rw [← lockedNames_congr hset]
    exact lockAt_releaseAll_of_kept (s := s.setState r state) (hset ▸ hr.kept r)
  · have hstate : ((s.setState r state).transactionAt q).Live := live_setState hne hlive
    have hmem' : r ∈ (s.setState r state).transactions :=
      mem_transactions_modifyTransaction.mpr hmem
    rw [transactionAt_retire hmem']
    split
    · next hqr => exact hqr ▸ hstate
    · exact hstate

theorem advance (h : Watched s p) (hr : Recorded s p) (hw : Waiting s p) (hl : Ledger s p hs)
    (ha : Advance s p s' p') : Watched s' p' := by
  have ho : InOrder s p := hl.inOrder
  have hid : ∀ {r access}, p.user? = some (r, access) → r ∈ s.transactions ∧ r = ⟨0, r.id⟩ :=
    fun hu => ⟨ho.user _ _ hu, hr.ref_eq ho (ho.user _ _ hu)⟩
  cases ha with
  | refuse =>
    exact h.still (lockAt_addLock s _) rfl h.awake (fun _ _ _ => id) trivial fun _ _ => id
  | covered =>
    exact h.still (lockAt_addLock s _) rfl h.awake (fun _ _ _ => id) h.ready fun _ _ => id
  | @ask c r d n rest kind hi hk =>
    refine h.still (lockAt_addLock s _) rfl h.awake
      (fun _ _ _ hl => live_modifyTransaction hl fun _ => id) ?_ fun _ _ => False.elim
    refine ⟨.inl (state_setWaitingOn.trans h.ready), ?_⟩
    show ((s.addLock (.entity n.entity)).lockAt (.entity n.entity)).Meets r.id kind false
    rw [lockAt_addLock]
    exact meets_of_request (hw.sound _) hk
  | sleep hj => exact h.sleep hw (hid rfl).2 hj
  | grant hj => exact h.grant hw hj
  | fail hj => exact h.fail hw hj
  | @keep c r d e rest w hs =>
    refine h.still (fun _ => rfl) rfl h.awake
      (fun _ _ _ hl => live_modifyTransaction hl fun _ => id) ?_ fun _ _ => id
    have hsame : ((s.modifyTransaction r fun t =>
        { t with lockSet := t.lockSet.insert e }).transactionAt r).state =
          (s.transactionAt r).state := view_modifyTransaction Transaction.state fun _ => rfl
    exact hsame.trans hs
  | giveBack hs => exact absurd h.ready hs
  | @abort c r e rest error hs =>
    refine h.quiet (fun _ => rfl) rfl rfl (fun name v hv hlive => ?_) fun _ _ => id
    have hne : (⟨0, v.transaction⟩ : TransactionRef) ≠ r := fun hvr =>
      h.awake r rfl name v hv (congrArg TransactionRef.id hvr)
    have hsame : (s.setState r .aborting).transactionAt ⟨0, v.transaction⟩ =
        s.transactionAt ⟨0, v.transaction⟩ := transactionAt_modifyTransaction_ne hne
    exact hsame.symm ▸ hlive
  | @beginPhased c r | @beginAtOnce c r =>
    refine h.quiet (fun _ => rfl) rfl rfl (fun name v hv hlive => ?_) fun _ _ => id
    have hne : (⟨0, v.transaction⟩ : TransactionRef) ≠ r := fun hvr =>
      hw.not_mem_waiters ho hr (hid rfl).1 (ho.isAsleep_eq_false (ho.aside r .exclusive rfl)) name v
        hv (congrArg TransactionRef.id hvr)
    rw [setState, transactionAt_modifyTransaction_ne hne]
    exact hlive
  | undone | committed =>
    have hne := state_ne_active hl rfl
    exact (h.retired hr (hid rfl).1 (hid rfl).2 rfl (fun _ _ => id) hne _).quiet (fun _ => rfl) rfl
      rfl (fun _ _ _ => id) fun _ _ => id
  | @removed c r access =>
    have hretired : Watched (((s.setState r .aborted).retire r).setStatistics
        s.statistics.countRollback) idle :=
      (h.retired hr (hid rfl).1 (hid rfl).2 rfl (fun _ _ => id) (state_ne_active hl rfl) _).quiet
        (fun _ => rfl) rfl rfl (fun _ _ _ => id) fun _ _ => id
    exact (hretired.alerted r).quiet (fun _ => rfl) rfl rfl (fun _ _ _ => id) fun _ _ => id
  | _ =>
    exact h.quiet (fun _ => rfl) rfl rfl (fun _ _ _ => id) fun _ _ => id

theorem unlocked (h : Watched s idle) (hr : Recorded s idle) (hmem : r ∈ s.transactions)
    (hq : r = ⟨0, r.id⟩) : Watched (s.releaseAll r) idle ∧ Watched (s.forget r) idle := by
  have hat : ∀ name, (s.releaseAll r).lockAt name = if name ∈ (s.transactionAt r).lockedNames
      then (s.lockAt name).release r.id else s.lockAt name := fun _ =>
    lockAt_releaseAll_of_kept (hr.kept r)
  have hlive : ∀ q, (s.transactionAt q).Live → ((s.releaseAll r).transactionAt q).Live := by
    intro q hlive
    rw [transactionAt_releaseAll hmem]
    split
    · next hqr => exact hqr ▸ hlive
    · exact hlive
  constructor
  · exact h.released hr hq rfl (fun _ _ => id) hat (fun a b hab => (waits_releaseAll.mp hab).1)
      (fun a b ha hb hab => waits_releaseAll.mpr ⟨hab, fun _ _ => ⟨ha, hb⟩⟩) hlive
  · exact h.released hr hq rfl (fun _ _ => id) hat (fun a b hab => (waits_forget.mp hab).2.2)
      (fun a b ha hb hab => waits_forget.mpr ⟨ha, hb, hab⟩) hlive

theorem rouse {d d' : Deadline} {goal : Goal} {w : Waiter} (h : Watched s idle)
    (hw : Waiting s idle) (ho : InOrder s idle) (hr : Recorded s idle)
    (hk : s.calls[c]? = some ⟨r, .shared, .waiting name d goal⟩)
    (hv : (s.lockAt name).waiter? c = some w) :
    Watched ((s.dismiss c).modifyLock name (·.rouse w))
      (.looking c r name w.request d' goal true) := by
  have hleft : ∀ other v, v ∈ ((s.modifyLock name (·.rouse w)).lockAt other).waiters ↔
      v ∈ (s.lockAt other).waiters ∧ v.call ≠ c := fun other v => hw.mem_waiters_rouse hk hv
  obtain ⟨hmem, rfl, hid⟩ := hw.of_waiter? hk hv
  have hself := lockAt_modifyLock_self (f := fun l : Lock => l.rouse w) (mem_locks_of_waiter hmem)
  have hhas : ∀ other i, ((s.modifyLock name (·.rouse w)).lockAt other).Has i →
      (s.lockAt other).Has i := by
    intro other i hi
    rcases has_modifyLock hi with ⟨hi, -⟩ | ⟨rfl, hi⟩
    · exact hi
    · exact hi
  refine ⟨fun n₁ n₂ v hv u hu => ?_, fun q hq other v hv hvr => ?_, fun other v hv => ?_, ?_, ?_,
    h.acyclic⟩
  · exact h.alone n₁ n₂ v ((hleft n₁ v).mp hv).1 u ((hleft n₂ u).mp hu).1
  · cases hq
    obtain ⟨hv, hne⟩ := (hleft other v).mp hv
    exact hne (h.alone other name v hv w hmem (hvr.trans hid))
  · exact h.live other v ((hleft other v).mp hv).1
  · refine ⟨?_, by simp, fun _ => ?_⟩
    · have hknown : r ∈ s.transactions := ho.known _ _ hk
      have hlive := h.live name w hmem
      rw [← hid, ← hr.ref_eq ho hknown] at hlive
      exact hlive
    · show r.id ∉ ((s.modifyLock name (·.rouse w)).lockAt name).owners
      rw [hself, hid]
      exact (h.attended name).unowned w hmem
  · intro other
    show ((s.modifyLock name (·.rouse w)).lockAt other).Attended s.graph.Waits _ _
    by_cases hn : other = name
    · subst hn
      rw [hself]
      refine ((h.attended other).rouse (hw.sound other) hmem).mono (fun _ _ _ _ hw => .inl hw)
        (fun _ _ hb n hi => hb n (hhas n _ hi)) fun _ _ ha => ⟨rfl, hid ▸ ha⟩
    · rw [lockAt_modifyLock_ne hn]
      exact (h.attended other).mono (fun _ _ _ _ hw => .inl hw)
        (fun _ _ hb n hi => hb n (hhas n _ hi)) fun _ _ => False.elim

theorem start (h : Watched s idle) (hr : Recorded s idle) (hw : Waiting s idle)
    (hl : Ledger s idle hs) (he : s.OneRequest e) (hst : Start s e s' p) : Watched s' p := by
  have ho : InOrder s idle := hl.inOrder
  have hfree : ∀ {r}, s.admits r .shared = true → e.asker? = some r → ∀ name,
      ∀ v ∈ (s.lockAt name).waiters, v.transaction ≠ r.id := fun ha hask =>
    hw.not_mem_waiters ho hr (admits_iff.mp ha).1 (he.2.2 _ hask)
  have hnone : ∀ {r}, s.admits r .exclusive = true → ∀ name,
      ∀ v ∈ (s.lockAt name).waiters, (⟨0, v.transaction⟩ : TransactionRef) ≠ r :=
    fun ha name v hv hvr => hw.not_mem_waiters ho hr (admits_iff.mp ha).1
      (ho.isAsleep_eq_false (admits_iff.mp ha).2.2) name v hv (congrArg TransactionRef.id hvr)
  have hphase : ∀ {c : CallId} {k : Call} {task}, s.calls[c]? = some k →
      k.point.task? = some task → (s.transactionAt k.transaction).state ≠ .active := by
    intro c k task hk ht
    obtain ⟨phase, store, rest⟩ := task
    rw [((hl.entry k.transaction).calling c phase store rest (taskAt_of_call hk ht)).1]
    cases phase <;> simp [Phase.state]
  cases hst with
  | acquire | upgrade | release => exact absurd he.1 (by simp [Event.usesLock])
  | wait | stopWaiting | removeWaits => exact absurd he.2.1 (by simp [Event.usesGraph])
  | begin hn =>
    refine h.quiet (fun _ => rfl) rfl rfl (fun _ _ _ hlive => ?_) fun _ _ => id
    rw [transactionAt_begin ho hn]
    exact hlive
  | lock ha hs | lockAll ha hs =>
    refine h.still (fun _ => rfl) rfl (fun q hq => ?_) (fun _ _ _ => id) hs fun _ _ => id
    cases hq
    exact hfree ha rfl
  | register | dropEnded =>
    exact h.quiet (fun _ => rfl) rfl rfl
      (fun _ _ _ hl => live_modifyTransaction hl fun _ => id) fun _ _ => id
  | @commitInterrupted r ha | @rollback r ha =>
    refine h.quiet (fun _ => rfl) rfl rfl (fun name v hv hlive => ?_) fun _ _ => id
    rw [setState, transactionAt_modifyTransaction_ne (hnone ha name v hv)]
    exact hlive
  | @drop r ha =>
    refine h.quiet (fun _ => rfl) rfl rfl (fun name v hv hlive => ?_) fun _ _ => id
    rw [setState, transactionAt_modifyTransaction_ne (hnone ha name v hv)]
    exact live_modifyTransaction hlive fun _ => id
  | remove =>
    exact h.quiet (fun _ => rfl) rfl rfl
      (fun _ _ _ hl => live_modifyTransaction hl fun _ _ => .inr rfl) fun _ _ => id
  | @interrupt r | @managerInterrupt r =>
    have hmarked : Watched (s.modifyTransaction r fun t => { t with isInterrupted := true }) idle :=
      h.quiet (fun _ => rfl) rfl rfl
        (fun _ _ _ hl => live_modifyTransaction hl fun _ _ => .inr rfl) fun _ _ => id
    exact (hmarked.alerted r).quiet (fun _ => rfl) rfl rfl (fun _ _ _ => id) fun _ _ => id
  | @unlockAll r ha =>
    have hmem := (admits_iff.mp ha).1
    exact (h.unlocked hr hmem (hr.ref_eq ho hmem)).1.quiet (fun _ => rfl) rfl rfl
      (fun _ _ _ => id) fun _ _ => id
  | @forget r ha =>
    have hmem := (admits_iff.mp ha).1
    exact (h.unlocked hr hmem (hr.ref_eq ho hmem)).2.quiet (fun _ => rfl) rfl rfl
      (fun _ _ _ => id) fun _ _ => id
  | wake hk hv => exact h.rouse hw ho hr hk hv
  | expire hk _ hv => exact h.rouse hw ho hr hk hv
  | notPrepared hk | notCommitted hk =>
    refine h.quiet (fun _ => rfl) rfl rfl
      (fun _ _ _ hlive => live_setState (hphase hk rfl) hlive) fun _ _ => id
  | _ =>
    exact h.quiet (fun _ => rfl) rfl rfl (fun _ _ _ => id) fun _ _ => id

theorem rest {response : Response} (h : Watched s (.concluded response)) : Watched s idle :=
  h.quiet (fun _ => rfl) rfl rfl (fun _ _ _ => id) fun _ _ => id

theorem new (g : Granularity) (configs : List Config) (lockConfig : Config) :
    Watched (System.new g configs lockConfig) idle := by
  refine ⟨fun _ _ v hv => absurd hv not_mem_waiters_new, by simp [Stage.requester?],
    fun _ v hv => absurd hv not_mem_waiters_new, trivial, fun name => ?_,
    WaitForGraph.Acyclic.default⟩
  refine ⟨fun i hi => ?_, fun v hv => absurd hv not_mem_waiters_new,
    fun v hv => absurd hv not_mem_waiters_new, fun v hv => absurd hv not_mem_waiters_new⟩
  rw [lockAt_new] at hi
  exact absurd hi (by simp [default])

end Watched

end System

end Locking
