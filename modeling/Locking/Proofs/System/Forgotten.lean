import Mathlib.Data.List.Sort
import Locking.Proofs.System.Deadlock
import Locking.Proofs.System.Interrupted
import Locking.Proofs.WaitForGraph.Detection

/-! What the wait-for graph forgets when single locks are released.  A release drops its transaction
from the graph on both sides, whatever else the transaction holds, and it drops nothing else.  So a
wait for a transaction is known from the moment on at which the request falls asleep, until a lock is
released on behalf of either of the two, and so long a request of the other one that would close the
cycle is refused. -/

namespace Locking

open Relation

/-- The transaction number on whose behalf an event releases locks. -/
def Event.released? : Event → Option TransactionId
  | release i _ => some i
  | unlockAll r | forget r => some r.id
  | _ => none

theorem WaitForGraph.waitsFor_remove (g : WaitForGraph) (i j : TransactionId) :
    (g.remove i).waitsFor j = if j = i then [] else (g.waitsFor j).filter (· ≠ i) := by
  have hmem : ∀ k, k ∈ (g.remove i).waitsFor j ↔ j ≠ i ∧ k ≠ i ∧ k ∈ g.waitsFor j := fun k => by
    simp only [waitsFor, Std.ExtTreeSet.mem_toList]
    exact waits_remove
  split
  · next hj => exact List.eq_nil_iff_forall_not_mem.mpr fun k hk => ((hmem k).mp hk).1 hj
  · next hj =>
    refine (pairwise_waitsFor _ j).eq_of_mem_iff ((pairwise_waitsFor g j).filter _) fun k => ?_
    rw [hmem, List.mem_filter, decide_eq_true_eq, and_iff_right hj, and_comm]

namespace Lock

variable {l : Lock} {i j : TransactionId} {kind : Request}

/-- An upgrade that gives up its shared hold is granted neither sooner nor later for it. -/
theorem grantable_enter : (l.enter i kind).grantable i kind = l.grantable i kind := by
  by_cases hk : kind = .upgrade
  · subst hk
    rw [Bool.eq_iff_iff, grantable_upgrade_iff, grantable_upgrade_iff]
    refine forall_congr' fun j => ?_
    rw [mem_owners_enter]
    tauto
  · rw [enter, if_neg hk]

theorem mem_blockers_enter :
    j ∈ (l.enter i kind).blockers i kind ↔ j ∈ l.blockers i kind := by
  rw [mem_blockers, mem_blockers, mem_owners_enter, mem_upgraders_enter]
  tauto

end Lock

namespace System

variable {s s' : System} {p p' : Stage} {e : Event} {r : TransactionRef} {c : CallId}
  {name other : LockName} {kind kind' : Request} {d : Deadline} {goal : Goal} {w : Bool}
  {x t u : TransactionId} {result : System × Response}

/-! ### Locks of their own -/

/-- Enters locks that have not been asked for before. -/
def addLocks (s : System) (names : List LockName) : System := names.foldl addLock s

theorem waiting_addLocks (names : List LockName) (h : InOrder s idle ∧ Waiting s idle) :
    InOrder (s.addLocks names) idle ∧ Waiting (s.addLocks names) idle := by
  induction names generalizing s with
  | nil => exact h
  | cons name names ih =>
    obtain ⟨ho, hw⟩ := h
    refine ih (s := s.addLock name) ⟨⟨ho.fresh, ho.suited, ho.known, ho.apart, ho.numbered, ho.going,
      ho.user, ho.aside⟩, hw.frame (fun other => ?_) (fun _ => rfl) (by simp [Stage.lock?])⟩
    rw [lockAt_addLock]
    exact .refl _

/-! ### Falling asleep -/

/-- A call that is asleep in the end, and was not so at first, has fallen asleep last of all. -/
theorem Advances.fell_asleep {k : Call} (ha : Advances s p result) (ho : InOrder s p)
    (hw : Waiting s p) (hk : result.1.calls[c]? = some k) (hasleep : k.point.isAsleep = true)
    (hnot : s.calls[c]? ≠ some k) : ∃ s₀ r name kind d goal w,
      Waiting s₀ (.looking c r name kind d goal w) ∧ InOrder s₀ (.looking c r name kind d goal w) ∧
        Advance s₀ (.looking c r name kind d goal w) result.1 (.concluded (.asleep c)) := by
  induction ha with
  | concluded => exact absurd hk hnot
  | @step s p s' p' result hadvance ha ih =>
    by_cases hk' : s'.calls[c]? = some k
    · rcases hadvance.calls_of_asleep hk' hasleep with hk' | ⟨r, name, kind, d, goal, w, rfl, rfl, rfl⟩
      · exact absurd hk' hnot
      · cases ha with
        | concluded => exact ⟨s, r, name, kind, d, goal, w, hw, ho, hadvance⟩
        | step h => exact nomatch h
    · exact ih (ho.advance hadvance) (hw.advance ho hadvance) hk hk'

/-- When a request has fallen asleep, its transaction waits for exactly those in its way. -/
theorem Advance.waits_asleep (ho : InOrder s (.looking c r name kind d goal w))
    (hw : Waiting s (.looking c r name kind d goal w))
    (ha : Advance s (.looking c r name kind d goal w) s' (.concluded (.asleep c)))
    (hsleeps : s'.Sleeps c x other kind') :
    s'.graph.Waits x u ↔ s'.Obstructs other kind' x u := by
  cases ha with
  | @sleep _ _ _ _ _ _ _ g hj =>
    obtain ⟨q, access, d', goal', v, hk, rfl, hv, rfl⟩ := hsleeps
    rw [calls_suspend, if_pos rfl] at hk
    cases hk
    have hself : ∀ {f : Lock → Lock}, (s.modifyLock name f).lockAt name = f (s.lockAt name) :=
      lockAt_modifyLock_self (hw.looked name rfl)
    have hv : v.request = kind := by
      have hv : ((s.modifyLock name fun l => (l.approach r.id kind w).park c r.id kind).lockAt
        name).waiter? c = some v := hv
      rw [hself] at hv
      have hcall : v.call = c := by simpa using List.find?_some hv
      rcases List.mem_append.mp (List.mem_of_find?_eq_some hv) with hold | hnew
      · exact absurd hcall (hw.call_ne ho rfl v (by simpa using hold))
      · rw [List.mem_singleton.mp hnew]
    subst hv
    have hwait := (Attempt.judge_eq_sleeps_iff.mp hj).2.2.2
    refine (WaitForGraph.waits_of_wait_ok hwait).trans ?_
    rw [attempt_transaction, attempt_request, if_pos rfl, Lock.mem_blockers, ← and_assoc, and_self]
    show _ ↔ u ≠ r.id ∧ (u ∈ ((s.modifyLock name fun l =>
      (l.approach r.id v.request w).park c r.id v.request).lockAt name).owners ∨ _ ∧
        u ∈ ((s.modifyLock name fun l =>
          (l.approach r.id v.request w).park c r.id v.request).lockAt name).upgraders)
    rw [hself]
    rfl

/-- As soon as an event has put a new call to sleep, or one that it has woken up, the graph knows
whom the transaction waits for. -/
theorem waits_of_sleeps (ho : InOrder s idle) (hw : Waiting s idle)
    (hnew : s.calls[c]? = none ∨ e = .wake c) (hsleeps : (s.step e).1.Sleeps c x name kind) :
    (s.step e).1.graph.Waits x u ↔ (s.step e).1.Obstructs name kind x u := by
  obtain ⟨r, access, d, goal, v, hk, hx, hv, hkind⟩ := hsleeps
  obtain ⟨s', p, hst, ha, hnot⟩ : ∃ s' p, Start s e s' p ∧ Advances s' p (s.step e) ∧
      s'.calls[c]? ≠ some ⟨r, access, .waiting name d goal⟩ := by
    rcases hnew with hnone | rfl
    · obtain ⟨s', p, hst, ha⟩ := follows_step ho.tidy e
      refine ⟨s', p, hst, ha, fun hk' => ?_⟩
      obtain ⟨d', hk'⟩ := ho.calls_of_asleep hst hk'
      exact absurd (hnone.symm.trans hk') (by simp)
    · obtain ⟨q, other, d', goal', v', hk', hv'⟩ : ∃ q other d' goal' v',
          s.calls[c]? = some ⟨q, .shared, .waiting other d' goal'⟩ ∧
            (s.lockAt other).waiter? c = some v' := by
        rcases wake_cases ho.tidy c with hrefused | hwoken
        · rw [show (s.step (.wake c)).1 = s from congrArg Prod.fst hrefused] at hk hv
          obtain rfl : access = .shared := ho.suited c _ hk
          exact ⟨r, name, d, goal, v, hk, hv⟩
        · exact hwoken
      refine ⟨_, _, .wake hk' hv', waking_course ho.tidy hk' hv', ?_⟩
      simp [modifyLock, dismiss]
  obtain ⟨s₀, q, other, kind', d', goal', w, hw₀, ho₀, hlast⟩ :=
    ha.fell_asleep (ho.start hst) (hw.start ho hst) hk rfl hnot
  exact hlast.waits_asleep ho₀ hw₀ ⟨r, access, d, goal, v, hk, hx, hv, hkind⟩

/-! ### Waits that stay known -/

/-- The graph is used through locks alone, nothing is released on behalf of transaction number `x` or
`t`, and no request of `x` is made or wakes up. -/
def KeepsWaiting (x t : TransactionId) (s : System) (e : Event) : Prop :=
  e.usesGraph = false ∧ (∀ i ∈ e.released?, i ≠ x ∧ i ≠ t) ∧ (∀ r ∈ e.asker?, r.id ≠ x) ∧
    ∀ r ∈ s.requester? e, r.id ≠ x

instance (x t : TransactionId) (s : System) (e : Event) : Decidable (s.KeepsWaiting x t e) :=
  inferInstanceAs (Decidable (_ ∧ (∀ i ∈ e.released?, _) ∧ (∀ r ∈ e.asker?, _) ∧
    ∀ r ∈ s.requester? e, _))

/-- Unless one of the two has begun to end, `x` waits for `t`; no request of `x` goes on. -/
structure Known (x t : TransactionId) (s : System) (p : Stage) : Prop where
  inOrder : InOrder s p
  waits : (∀ q : TransactionRef, q.id = x ∨ q.id = t → (s.transactionAt q).state = .active) →
    s.graph.Waits x t
  resting : ∀ r, p.requester? = some r → r.id ≠ x

namespace Known

theorem advance (h : Known x t s p) (ha : Advance s p s' p') : Known x t s' p' := by
  refine ⟨h.inOrder.advance ha, fun hactive => ?_, fun r hr => h.resting r (ha.requester? hr)⟩
  have hwaits := h.waits fun q hq => ha.active (hactive q hq)
  -- Who has ended is not one of the two.
  have hended : ∀ {r : TransactionRef} {state : State}, r ∈ s.transactions → state ≠ .active →
      (∀ q, (s'.transactionAt q).state = (((s.setState r state).retire r).transactionAt q).state) →
        ((s.setState r state).retire r).graph.Waits x t := by
    intro r state hr hne hsame
    have hr : r.id = x ∨ r.id = t → False := fun hr' => by
      have hs := hactive r hr'
      rw [hsame, state_retired hr] at hs
      exact hne hs
    exact waits_retire.mpr ⟨fun hx => hr (.inl hx.symm), fun ht => hr (.inr ht.symm), hwaits⟩
  cases ha with
  | @sleep c r name kind d goal w g hj =>
    have hg := (Attempt.waits_judge (s.attempt c r kind d w) ((s.lockAt name).approach r.id kind w)
      (Ne.symm (h.resting r rfl))).mpr hwaits
    rwa [hj] at hg
  | @grant c r name kind d goal w g hj | @fail c r name kind d goal w g error hj =>
    have hne : x ≠ r.id := Ne.symm (h.resting r rfl)
    have hg := (Attempt.waits_judge (s.attempt c r kind d w)
      ((s.lockAt name).approach r.id kind w) hne).mpr hwaits
    rw [hj] at hg
    exact (Watched.waits_leave hne).mpr hg
  | @giveBack c r d e rest w hs =>
    have hr : r.id = x ∨ r.id = t → False := fun hr => hs (hactive r hr)
    exact WaitForGraph.waits_remove.mpr
      ⟨fun hx => hr (.inl hx.symm), fun ht => hr (.inr ht.symm), hwaits⟩
  | undone | committed => exact hended (h.inOrder.user _ _ rfl) (by simp) fun _ => rfl
  | removed =>
    rw [graph_alert]
    exact hended (h.inOrder.user _ _ rfl) (by simp) fun q => by rw [transactionAt_alert]; rfl
  | _ => exact hwaits

theorem start (h : Known x t s idle) (he : s.KeepsWaiting x t e) (hst : Start s e s' p) :
    Known x t s' p := by
  obtain ⟨hgraph, hreleased, hasker, hrequester⟩ := he
  refine ⟨h.inOrder.start hst, fun hactive => ?_, fun r hr => ?_⟩
  · have hwaits := h.waits fun q hq =>
      active_of_turns (.begins (hst.begins h.inOrder q)) (hactive q hq)
    cases hst with
    | wait | stopWaiting | removeWaits => exact absurd hgraph (by simp [Event.usesGraph])
    | release =>
      obtain ⟨hx, ht⟩ := hreleased _ rfl
      exact WaitForGraph.waits_remove.mpr ⟨hx.symm, ht.symm, hwaits⟩
    | unlockAll =>
      obtain ⟨hx, ht⟩ := hreleased _ rfl
      exact waits_releaseAll.mpr ⟨hwaits, fun _ _ => ⟨hx.symm, ht.symm⟩⟩
    | forget =>
      obtain ⟨hx, ht⟩ := hreleased _ rfl
      exact waits_forget.mpr ⟨hx.symm, ht.symm, hwaits⟩
    | interrupt | managerInterrupt =>
      rw [System.interrupt, graph_alert]
      exact hwaits
    | _ => exact hwaits
  · cases hst with
    | lock | lockAll => exact hasker r hr
    | acquire | upgrade => exact hrequester r hr
    | wake hk | expire hk => exact hrequester r (by rw [requester?, hk]; exact hr)
    | _ => exact absurd hr (by simp [Stage.requester?])

theorem invariant : Invariant (KeepsWaiting x t) (Known x t) where
  inOrder h := h.inOrder
  rest h := ⟨h.inOrder.rest, h.waits, by simp [Stage.requester?]⟩
  start he h hst := h.start he hst
  advance h ha := h.advance ha

end Known

/-! ### Requests that are refused -/

/-- A request that would have to wait for somebody who waits for its transaction is refused. -/
theorem request_deadlock (hl : name ∈ s.locks) (hi : (s.transactionAt r).isInterrupted = false)
    (hd : d ≠ .passed) (hg : (s.lockAt name).grantable r.id kind = false)
    (hu : s.Obstructs name kind r.id u) (hwaits : s.graph.Waits u r.id) :
    (s.request c r name kind d).2 = .failed .deadlock := by
  let s' := (s.setWaitingOn r (some name)).modifyLock name (·.approach r.id kind false)
  have hat : s'.lockAt name = (s.lockAt name).enter r.id kind := by
    show ((s.setWaitingOn r (some name)).modifyLock name _).lockAt name = _
    rw [lockAt_modifyLock_self (s := s.setWaitingOn r (some name)) hl]
    rfl
  have hsame := view_modifyTransaction (s := s) (r := r) (q := r) Transaction.isInterrupted
    (f := fun t => { t with waitingOn := some name }) fun _ => rfl
  have hi' : (s'.attempt c r kind d false).isInterrupted = false := hsame.trans hi
  have hlate : (s'.attempt c r kind d false).isLate = false := by
    simp [attempt, hd]
  have hblocks : u ∈ ((s.lockAt name).enter r.id kind).blockers r.id kind :=
    Lock.mem_blockers_enter.mpr (Lock.mem_blockers.mpr hu)
  have hrefused : (s.graph.wait r.id (((s.lockAt name).enter r.id kind).blockers r.id kind)).2 =
      .error .deadlock := WaitForGraph.wait_eq_deadlock_iff.mpr ⟨u, hblocks, hu.1, .single hwaits⟩
  have hj : (s'.attempt c r kind d false).judge (s'.lockAt name) s'.graph =
      ((s.graph.wait r.id (((s.lockAt name).enter r.id kind).blockers r.id kind)).1,
        .failed .deadlock) := by
    rw [hat]
    exact Attempt.judge_eq_failed_iff.mpr (.inr ⟨hi', Lock.grantable_enter.trans hg,
      .inr ⟨hlate, Prod.ext rfl hrefused⟩⟩)
  rw [request_eq, look_eq]
  simp only [Attempt.run]
  rw [hj]

/-- An event makes a request for a single lock. -/
inductive AsksFor (s : System) : Event → TransactionRef → LockName → Request → Deadline → Prop
  | acquire {r : TransactionRef} {name : LockName} {mode : LockMode} {d : Deadline} {kind : Request}
      (hk : Request.of? ((s.lockAt name).modeOf r.id) mode = some kind) :
    AsksFor s (.acquire r name mode d) r name kind d
  | upgrade {r : TransactionRef} {name : LockName} {d : Deadline}
      (hk : (s.lockAt name).modeOf r.id ≠ some .exclusive) :
    AsksFor s (.upgrade r name d) r name .upgrade d

theorem AsksFor.refused (h : s.AsksFor e r name kind d) (ha : s.admits r .shared = true)
    (hl : name ∈ s.locks) (hi : (s.transactionAt r).isInterrupted = false)
    (hverdict : (s.request s.nextCall r name kind d).2 = .failed .deadlock) :
    (s.step e).2 = .returned (.failed .deadlock) := by
  have hl : s.locks.contains name = true := hl
  cases h with
  | acquire hk =>
    simp only [step, withAccess, ha, if_true, withLock, hl, System.acquire, ask, hi, hk,
      Bool.false_eq_true, if_false]
    rw [hverdict]
    rfl
  | upgrade hk =>
    simp only [step, withAccess, ha, if_true, withLock, hl, System.upgrade, hi, hk,
      Bool.false_eq_true, if_false]
    rw [hverdict]
    rfl

theorem active_of_entries (h : ∀ entry ∈ s.transactions.toList, entry.2.state = .active)
    (q : TransactionRef) : (s.transactionAt q).state = .active := by
  by_cases hq : q ∈ s.transactions
  · rw [transactionAt, Std.ExtTreeMap.getElem?_eq_some_getElem hq]
    exact h _ (Std.ExtTreeMap.mem_toList_iff_getElem?_eq_some.mpr
      (Std.ExtTreeMap.getElem?_eq_some_getElem hq))
  · rw [transactionAt_of_not_mem hq]
    rfl

/-- What is true of a wait when single locks are released.  Take any run of any locks that share one
wait-for graph, with any number of managers, and in it an event that puts a call of transaction number
`x` to sleep on a lock that number `t` owns, or waits to upgrade.  A release on behalf of `i` drops `i`
from what everybody waits for, leaves `i` waiting for nobody, and changes nothing else in the graph.
As long as no other request of `x` is made, none wakes up, and nothing is released on behalf of `x` or
`t`, which stay active, `x` is known to wait for `t`, and whatever lock `t` requests that it would have
to wait for because of `x`, the request is refused as a deadlock. -/
theorem wait_known_until_release (g : Granularity) (configs : List Config) (lockConfig : Config)
    (names : List LockName) (before later : List Event) (s : System)
    (hs : s = ((System.new g configs lockConfig).addLocks names).run before)
    (e : Event) (c : CallId) (x t : TransactionId) (name : LockName) (kind : Request)
    (hnew : s.calls[c]? = none ∨ e = .wake c) (hsleeps : (s.step e).1.Sleeps c x name kind)
    (hblocked : (s.step e).1.Obstructs name kind x t)
    (hlater : Obeys (KeepsWaiting x t) (s.step e).1 later)
    (hactive : ∀ q : TransactionRef, q.id = x ∨ q.id = t →
      (((s.step e).1.run later).transactionAt q).state = .active) :
    let s' := (s.step e).1.run later
    (∀ i other j, (s'.release i other).graph.waitsFor j =
      if j = i then [] else (s'.graph.waitsFor j).filter (· ≠ i)) ∧
    t ∈ s'.graph.waitsFor x ∧
    ∀ e' r other kind' d, s'.AsksFor e' r other kind' d → r.id = t →
      s'.admits r .shared = true → other ∈ s'.locks → (s'.transactionAt r).isInterrupted = false →
      d ≠ .passed → (s'.lockAt other).grantable t kind' = false → s'.Obstructs other kind' t x →
        (s'.step e').2 = .returned (.failed .deadlock) := by
  intro s'
  obtain ⟨ho, hw⟩ : InOrder s idle ∧ Waiting s idle := by
    rw [hs]
    exact Waiting.invariant.run
      (waiting_addLocks names ⟨.new g configs lockConfig, .new g configs lockConfig⟩)
      (Obeys.trivial _ before)
  have hasleep : Known x t (s.step e).1 idle :=
    ⟨(Waiting.invariant.step ⟨ho, hw⟩ trivial).1,
      fun _ => (waits_of_sleeps ho hw hnew hsleeps).mpr hblocked, by simp [Stage.requester?]⟩
  have hwaits : s'.graph.Waits x t := (Known.invariant.run hasleep hlater).waits hactive
  refine ⟨fun i other j => WaitForGraph.waitsFor_remove _ i j, IdSet.mem_toList.mpr hwaits, ?_⟩
  rintro e' r other kind' d hasks rfl hadmits hl hi hd hg hblocks
  exact hasks.refused hadmits hl hi (request_deadlock hl hi hd hg hblocks hwaits)

/-- Transactions 1 and 2 own a lock each, and 2 waits for the lock of 1.  That 3 releases its own lock
meanwhile does not matter: the request of 1 for the lock of 2 is refused. -/
theorem wait_known_after_other_release :
    let names : List LockName := [.free "K", .free "L", .free "M"]
    let before : List Event := [.begin 0, .begin 0, .begin 0,
      .acquire ⟨0, 1⟩ (.free "L") .exclusive .never, .acquire ⟨0, 2⟩ (.free "M") .exclusive .never,
      .acquire ⟨0, 3⟩ (.free "K") .exclusive .never]
    let e : Event := .acquire ⟨0, 2⟩ (.free "L") .exclusive .never
    let later : List Event := [.release 3 (.free "K")]
    let s := ((System.new .hierarchical [{}] {}).addLocks names).run before
    let s' := (s.step e).1.run later
    let c : CallId := 0
    (s.calls[c]? = none ∨ e = .wake c) ∧ (s.step e).1.Sleeps c 2 (.free "L") .exclusive ∧
      (s.step e).1.Obstructs (.free "L") .exclusive 2 1 ∧
      Obeys (KeepsWaiting 2 1) (s.step e).1 later ∧ 1 ∈ s'.graph.waitsFor 2 ∧
      (s'.step (.acquire ⟨0, 1⟩ (.free "M") .exclusive .never)).2 =
        .returned (.failed .deadlock) := by
  intro names before e later s s' c
  have hnew : s.calls[c]? = none ∨ e = .wake c := .inl (by decide +kernel)
  have hsleeps : (s.step e).1.Sleeps c 2 (.free "L") .exclusive :=
    ⟨⟨0, 2⟩, .shared, .never, .single, ⟨0, 2, .exclusive, 0, false⟩, by decide +kernel, rfl,
      by decide +kernel, rfl⟩
  have hblocked : (s.step e).1.Obstructs (.free "L") .exclusive 2 1 := by decide +kernel
  have hlater : Obeys (KeepsWaiting 2 1) (s.step e).1 later := by decide +kernel
  have hactive : ∀ q, (s'.transactionAt q).state = .active :=
    active_of_entries (by decide +kernel)
  obtain ⟨-, hknown, hrefused⟩ := wait_known_until_release .hierarchical [{}] {} names before later s
    rfl e c 2 1 (.free "L") .exclusive hnew hsleeps hblocked hlater fun q _ => hactive q
  have hasks : s'.AsksFor (.acquire ⟨0, 1⟩ (.free "M") .exclusive .never) ⟨0, 1⟩ (.free "M") .exclusive
      .never := .acquire (by decide +kernel)
  exact ⟨hnew, hsleeps, hblocked, hlater, hknown, hrefused _ _ _ _ _ hasks rfl (by decide +kernel)
    (by decide +kernel) (by decide +kernel) (by decide) (by decide +kernel) (by decide +kernel)⟩

/-- The law does not hold of releases on behalf of the one that is waited for.  Transaction 2 sleeps on
a lock that 1 owns, and 1 releases another lock: the graph forgets the wait although 1 still owns the
lock that 2 sleeps on, and the request of 1 that closes the cycle falls asleep; before the release it
would have been refused. -/
theorem wait_forgotten_at_release :
    let names : List LockName := [.free "K", .free "L", .free "M"]
    let events : List Event := [.begin 0, .begin 0,
      .acquire ⟨0, 1⟩ (.free "K") .exclusive .never, .acquire ⟨0, 1⟩ (.free "L") .exclusive .never,
      .acquire ⟨0, 2⟩ (.free "M") .exclusive .never, .acquire ⟨0, 2⟩ (.free "L") .exclusive .never]
    let closing : Event := .acquire ⟨0, 1⟩ (.free "M") .exclusive .never
    let s := ((System.new .hierarchical [{}] {}).addLocks names).run events
    let s' := (s.step (.release 1 (.free "K"))).1
    s.calls.keys = [0] ∧ s.Sleeps 0 2 (.free "L") .exclusive ∧
      s.Obstructs (.free "L") .exclusive 2 1 ∧ s'.Obstructs (.free "L") .exclusive 2 1 ∧
      s.graph.waitsFor 2 = [1] ∧ s'.graph.waitsFor 2 = [] ∧
      (s.step closing).2 = .returned (.failed .deadlock) ∧ (s'.step closing).2 = .asleep 1 := by
  intro names events closing s s'
  have hsleeps : s.Sleeps 0 2 (.free "L") .exclusive :=
    ⟨⟨0, 2⟩, .shared, .never, .single, ⟨0, 2, .exclusive, 0, false⟩, by decide +kernel, rfl,
      by decide +kernel, rfl⟩
  exact ⟨by decide +kernel, hsleeps, by decide +kernel, by decide +kernel, by decide +kernel,
    by decide +kernel, by decide +kernel, by decide +kernel⟩

end System

end Locking
