import Mathlib.Logic.Relation
import Locking.Proofs.System.Crowd
import Locking.Proofs.System.Watched

/-! What happens in a crowd, one deed after the other.  A deed is the start of an event or an advance
of one of the calls that go on, so between two deeds of one call there may be any number of others. -/

namespace Locking

/-- What may happen in a crowd. -/
inductive Deed where
  /-- An event starts. -/
  | event (e : Event)
  /-- A call that goes on advances. -/
  | advance (c : CallId)
  /-- A transaction that is on its way out gives back a lock. -/
  | release (r : TransactionRef) (name : LockName)
  /-- A call number is left out. -/
  | number

theorem Stage.user?_of_requester? {p : Stage} {r : TransactionRef} (h : p.requester? = some r) :
    p.user? = some (r, .shared) := by
  cases p <;> simp_all [Stage.requester?, Stage.user?]

theorem Stage.Fails.call?_ne_none {p : Stage} {i : TransactionId} (h : p.Fails i) :
    p.call? ≠ none := by
  cases p with
  | failed => simp [Stage.call?]
  | _ => exact h.elim

theorem Stage.Suspends.requester? {p q : Stage} (h : p.Suspends q) :
    q.requester? = p.requester? := by
  cases h <;> rfl

theorem Stage.Suspends.user? {p q : Stage} (h : p.Suspends q) : q.user? = p.user? := by
  cases h <;> rfl

namespace System

variable {s s' : System} {p p' : Stage} {e : Event} {r : TransactionRef} {c : CallId}

/-- Whose request goes on after a start: the event asks for locks, or a request goes on that has
been asleep. -/
theorem Start.requester? (he : e.usesLock = false) (hs : Start s e s' p)
    (hr : p.requester? = some r) :
    (e.asker? = some r ∧ s' = s ∧ (s.transactionAt r).state = .active ∧
        ∃ needs, p = .taking s.nextCall r s.lockDeadline needs) ∨
      ∃ c name kind d d' goal, p = .looking c r name kind d' goal true ∧
        s.resumesAt c = some (.looking c r name kind d goal true) := by
  cases hs with
  | acquire | upgrade => exact absurd he (by simp [Event.usesLock])
  | lock _ hs | lockAll _ hs =>
    cases hr
    exact .inl ⟨rfl, rfl, hs, _, rfl⟩
  | wake hk hw | expire hk _ hw =>
    cases hr
    exact .inr ⟨_, _, _, _, _, _, rfl, resumesAt_of_waiter? hk hw⟩
  | _ => exact absurd hr (by simp [Stage.requester?])

/-! ### The next thing that a call does -/

/-- What a call that goes on does next, and where it stands then. -/
def next (s : System) : Stage → System × Stage
  | .concluded response => (s, .concluded response)
  | .taking _ _ _ [] => (s, .concluded (.returned (.ok .unit)))
  | .taking c r d (n :: rest) =>
    let s' := s.addLock (.entity n.entity)
    if (s.transactionAt r).isInterrupted then
      (s', .failed c r (.plan n.entity rest) .interrupted)
    else match Request.of? ((s.lockAt (.entity n.entity)).modeOf r.id) n.mode with
      | none => (s', .granted c r d (.plan n.entity rest) false)
      | some kind => (s'.setWaitingOn r (some (.entity n.entity)),
          .looking c r (.entity n.entity) kind d (.plan n.entity rest) false)
  | .looking c r name kind d goal w =>
    let a := s.attempt c r kind d w
    match a.judge ((s.lockAt name).approach r.id kind w) s.graph with
    | (g, .sleeps) =>
      (((s.modifyLock name fun l => (l.approach r.id kind w).park c r.id kind).setGraph g).suspend c
        ⟨r, .shared, .waiting name d goal⟩, .concluded (.asleep c))
    | (g, .granted) =>
      (((s.modifyLock name fun l => (l.approach r.id kind w).grant r.id kind).setGraph
        (a.leave g)).setWaitingOn r none, .granted c r d goal w)
    | (g, .failed error) =>
      (((s.modifyLock name fun l => (l.approach r.id kind w).abandon r.id).setGraph
        (a.leave g)).setWaitingOn r none, .failed c r goal error)
  | .granted _ _ _ .single w => (s, .concluded (.returned (.ok (.flag w))))
  | .granted c r d (.plan e rest) w =>
    if (s.transactionAt r).state = .active then
      ((s.modifyTransaction r fun t => { t with lockSet := t.lockSet.insert e }).setStatistics
        (s.statistics.countGrant w), .taking c r d rest)
    else (s.release r.id (.entity e), .failed c r (.plan e rest) .interrupted)
  | .failed _ _ .single error => (s, .concluded (.returned (.failed error)))
  | .failed c r (.plan _ _) error =>
    let s' := s.setStatistics (s.statistics.countFailure error)
    if (s.transactionAt r).state.canRollBack then
      (s'.setState r .aborting, .undoing c r .shared (.failure error) (s.transactionAt r).stores)
    else (s', .concluded (.returned (.failed error)))
  | .undoing c r access cause (store :: rest) =>
    (s.suspend c ⟨r, access, .rollingBack store rest cause⟩,
      .concluded (.storeCall c ⟨store, r, .rollback⟩))
  | .undoing _ r _ cause [] =>
    let s' := ((s.setState r .aborted).retire r).setStatistics s.statistics.countRollback
    if cause = .removal then (s'.alert r, .concluded (.returned (.ok .unit)))
    else (s', .concluded (.returned cause.outcome))
  | .deciding c r =>
    (s.setState r .committing, if s.twoPhaseCommit r.manager then
      .preparing c r (s.transactionAt r).stores else .committing c r (s.transactionAt r).stores)
  | .preparing c r (store :: rest) =>
    (s.suspend c ⟨r, .exclusive, .preparing store rest⟩,
      .concluded (.storeCall c ⟨store, r, .prepare⟩))
  | .preparing c r [] => (s, .committing c r (s.transactionAt r).stores)
  | .committing c r (store :: rest) =>
    (s.suspend c ⟨r, .exclusive, .committing store rest⟩,
      .concluded (.storeCall c ⟨store, r, .commit⟩))
  | .committing _ r [] =>
    (((s.setState r .committed).retire r).setStatistics s.statistics.countCommit,
      .concluded (.returned (.ok .unit)))

theorem advance_next (hc : p.call? = some c) : Advance s p (s.next p).1 (s.next p).2 := by
  cases p with
  | concluded => exact absurd hc (by simp [Stage.call?])
  | taking c r d needs =>
    cases needs with
    | nil => exact .done
    | cons n rest =>
      simp only [next]
      split
      · next hi => exact .refuse hi
      · next hi =>
        split
        · next hk => exact .covered (by simpa using hi) hk
        · next hk => exact .ask (by simpa using hi) hk
  | looking c r name kind d goal w =>
    simp only [next]
    split
    · next hj => exact .sleep hj
    · next hj => exact .grant hj
    · next hj => exact .fail hj
  | granted c r d goal w =>
    cases goal with
    | single => exact .grantedSingle
    | plan e rest =>
      simp only [next]
      split
      · next hs => exact .keep hs
      · next hs => exact .giveBack hs
  | failed c r goal error =>
    cases goal with
    | single => exact .failedSingle
    | plan e rest =>
      simp only [next]
      split
      · next hs => exact .abort hs
      · next hs => exact .abortEnded (by simpa using hs)
  | undoing c r access cause stores =>
    cases stores with
    | cons store rest => exact .undo
    | nil =>
      simp only [next]
      split
      · next hcause =>
        subst hcause
        exact .removed
      · next hcause => exact .undone hcause
  | deciding c r =>
    simp only [next]
    split
    · next ht => exact .beginPhased ht
    · next ht => exact .beginAtOnce (by simpa using ht)
  | preparing c r stores =>
    cases stores with
    | cons store rest => exact .prepare
    | nil => exact .prepared
  | committing c r stores =>
    cases stores with
    | cons store rest => exact .commit
    | nil => exact .committed

/-- A call that goes on has one way to go on. -/
theorem advance_iff_next : Advance s p s' p' ↔ p.call?.isSome = true ∧ s.next p = (s', p') := by
  constructor
  · intro ha
    obtain ⟨c, hc⟩ := ha.exists_call
    refine ⟨by simp [hc], ?_⟩
    cases ha <;> simp_all [next]
  · rintro ⟨hc, hnext⟩
    obtain ⟨c, hc⟩ := Option.isSome_iff_exists.mp hc
    have ha := advance_next (s := s) hc
    rwa [hnext] at ha

end System

namespace Crowd

open Relation Locking.System

/-! ### Deeds -/

/-- What a deed makes of a crowd. -/
inductive Step (k : Crowd) : Deed → Crowd → Prop
  | event {e s p} (ha : k.Admits e) (hs : Start k.system e s p)
      (hp : ∀ c, p.call? = some c → k.going c = none) : Step k (.event e) (k.enter s p)
  | advance {c p s p'} (hc : k.going c = some p) (ha : Advance k.system p s p') :
    Step k (.advance c) (k.follow c s p')
  | release {r name} (hne : (k.system.transactionAt r).state ≠ .active)
      (hl : name ∈ k.system.locks) :
    Step k (.release r name) ⟨k.system.release r.id name, k.going⟩
  | number : Step k .number ⟨{ k.system with nextCall := k.system.nextCall + 1 }, k.going⟩

/-- What a crowd may come to if a rule allows each deed in the crowd in which it is done. -/
def Leads (rule : Crowd → Deed → Prop) : Crowd → Crowd → Prop :=
  ReflTransGen fun k k' => ∃ d, rule k d ∧ Step k d k'

variable {k k' : Crowd} {fresh s s' : System} {p p' q : Stage} {e : Event} {d : Deed} {b c : CallId}
  {r : TransactionRef} {access : Access} {name : LockName} {events : List Event}
  {rule : Crowd → Deed → Prop}

/-- What every allowed deed preserves holds in all that a crowd may come to. -/
theorem Leads.preserve {P : Crowd → Prop} (h : Leads rule k k') (hk : P k)
    (hstep : ∀ {k d k'}, P k → rule k d → k.Step d k' → P k') : P k' := by
  induction h with
  | refl => exact hk
  | tail _ hs ih =>
    obtain ⟨d, hd, hs⟩ := hs
    exact hstep ih hd hs

/-- A fresh system comes by deeds to what is reached from it by events. -/
theorem leads_iff_reached :
    Leads (fun _ _ => True) (still fresh) k ↔ ∃ events, Reached fresh events k := by
  constructor
  · intro h
    refine h.preserve (P := fun k => ∃ events, Reached fresh events k) ⟨[], .fresh⟩ ?_
    rintro k d k' ⟨events, hk⟩ - hs
    cases hs with
    | event ha hs hp => exact ⟨_, hk.start ha hs hp⟩
    | advance hc ha => exact ⟨_, hk.advance hc ha⟩
    | release hne hl => exact ⟨_, hk.release hne hl⟩
    | number => exact ⟨_, hk.number⟩
  · rintro ⟨events, hk⟩
    induction hk with
    | fresh => exact .refl
    | start _ ha hs hp ih => exact ih.tail ⟨_, trivial, .event ha hs hp⟩
    | advance _ hc ha ih => exact ih.tail ⟨_, trivial, .advance hc ha⟩
    | release _ hne hl ih => exact ih.tail ⟨_, trivial, .release hne hl⟩
    | number _ ih => exact ih.tail ⟨_, trivial, .number⟩

/-! ### Runs -/

theorem Leads.advances {result : System × Response} (hr : ∀ k c, rule k (.advance c))
    (ha : Advances s p result) (h : Leads rule k (alone s p)) :
    Leads rule k (still result.1) := by
  induction ha with
  | concluded => exact h
  | step ha _ ih =>
    obtain ⟨c, hc⟩ := ha.exists_call
    refine ih ?_
    rw [← follow_alone hc ha.call?_eq]
    exact h.tail ⟨_, hr _ c, .advance (if_pos hc) ha⟩

/-- A run in which a rule allows each event is made of deeds that another rule allows, if that one
allows what the first one allows while no call goes on. -/
theorem Leads.run {allows : System → Event → Prop} (hr : ∀ k c, rule k (.advance c))
    (he : ∀ {s e}, allows s e → rule (still s) (.event e)) (ho : System.InOrder s idle)
    (hobeys : System.Obeys allows s events) (h : Leads rule k (still s)) :
    Leads rule k (still (s.run events)) := by
  induction events generalizing s with
  | nil => exact h
  | cons e events ih =>
    obtain ⟨s', p, hs, ha⟩ := follows_step ho.tidy e
    have hstart : (still s).Step (.event e) (alone s' p) :=
      .event (fun _ _ _ _ _ _ hc => absurd hc (by simp [still])) hs fun _ _ => rfl
    exact ih (InOrder.invariant.step ho trivial) hobeys.2
      (.advances hr ha (h.tail ⟨_, he hobeys.1, hstart⟩))

theorem Orderly.step (h : k.Orderly) (hs : k.Step d k') : k'.Orderly := by
  cases hs with
  | event ha hs => exact h.start ha hs
  | advance hc ha => exact h.advance hc ha
  | release _ hl => exact h.release hl
  | number => exact h.number

/-! ### Where the calls stand -/

theorem stage?_of_going (hc : k.going c = some p) : k.stage? c = some p :=
  Option.or_eq_some_iff.mpr (.inl hc)

theorem stage?_still {s : System} : (still s).stage? c = s.resumesAt c := rfl

theorem stage?_new {g : Granularity} {configs : List Config} {lockConfig : Config} :
    (still (System.new g configs lockConfig)).stage? c = none :=
  resumesAt_of_none (s := System.new g configs lockConfig) (c := c) (by simp [System.new])

theorem stage?_enter_self (hp : p.call? = some c) : (k.enter s p).stage? c = some p :=
  stage?_of_going (going_enter.mpr (.inl ⟨hp, rfl⟩))

theorem stage?_follow_of_call? (hp : p.call? ≠ none) : (k.follow c s p).stage? c = some p :=
  stage?_of_going (going_follow.mpr (.inl ⟨rfl, hp, rfl⟩))

/-- A release of locks leaves alone where the calls stand. -/
theorem stage?_release :
    Crowd.stage? ⟨k.system.release r.id name, k.going⟩ c = k.stage? c := by
  refine congrArg (k.going c).or (resumesAt_congr rfl fun other => ?_)
  exact (Lock.Steady.lenient.modifyLock (f := (Lock.release · r.id))
    (fun _ => .release _ _) other).request? c

namespace Orderly

theorem stage?_of_resumesAt (h : k.Orderly) (hq : k.system.resumesAt c = some q) :
    k.stage? c = some q := by
  refine Option.or_eq_some_iff.mpr (.inr ⟨?_, hq⟩)
  obtain ⟨j, hj, -⟩ := h.resting.resumesAt hq
  cases hc : k.going c with
  | none => rfl
  | some p =>
    rw [((h.inOrder c p hc).going c (h.call c p hc)).1] at hj
    exact absurd hj (by simp)

theorem call?_of_stage? (h : k.Orderly) (hq : k.stage? c = some q) : q.call? = some c := by
  rcases Option.or_eq_some_iff.mp hq with hq | ⟨-, hq⟩
  · exact h.call c q hq
  · obtain ⟨j, -, hcall, -⟩ := h.resting.resumesAt hq
    exact hcall

theorem mem_of_stage? (h : k.Orderly) (hq : k.stage? c = some q)
    (hu : q.user? = some (r, access)) : r ∈ k.system.transactions := by
  rcases Option.or_eq_some_iff.mp hq with hq | ⟨-, hq⟩
  · exact (h.inOrder c q hq).user r access hu
  · obtain ⟨j, hj, -, hju⟩ := h.resting.resumesAt hq
    obtain ⟨rfl, -⟩ := Prod.mk.inj (Option.some.inj (hju.symm.trans hu))
    exact h.resting.known c j hj

/-- Every call in progress goes on with the use that it makes of its transaction. -/
theorem exists_stage? {j : Call} (h : k.Orderly) (hj : k.system.calls[c]? = some j) :
    ∃ q, k.stage? c = some q ∧ q.user? = some (j.transaction, j.access) := by
  have hresumes : ∃ q, k.system.resumesAt c = some q := by
    obtain ⟨t, access, point⟩ := j
    cases point with
    | waiting name d goal =>
      obtain rfl : access = .shared := h.resting.suited c _ hj
      obtain ⟨w, hmem, hw⟩ := h.waiting.waiter c t name d goal (sleeperAt_of_call hj)
      have hw := (h.waiting.sound name).waiter?_eq_some_iff.mpr ⟨hmem, hw⟩
      exact ⟨_, resumesAt_of_waiter? hj hw⟩
    | preparing store rest => exact ⟨.preparing c t rest, by rw [resumesAt, hj]⟩
    | committing store rest => exact ⟨.committing c t rest, by rw [resumesAt, hj]⟩
    | rollingBack store rest cause =>
      exact ⟨.undoing c t access cause rest, by rw [resumesAt, hj]⟩
  obtain ⟨q, hq⟩ := hresumes
  obtain ⟨i, hi, -, hu⟩ := h.resting.resumesAt hq
  obtain rfl := Option.some.inj (hi.symm.trans hj)
  exact ⟨q, h.stage?_of_resumesAt hq, hu⟩

theorem looking_follow {kind : Request} {d : Deadline} {goal : Goal} {w : Bool}
    (h : k.Orderly) (hc : k.going c = some (.looking c r name kind d goal w))
    (ha : Advance k.system (.looking c r name kind d goal w) s' p') (hp' : p'.call? = none) :
    (k.follow c s' p').stage? c = some (.looking c r name kind d goal true) := by
  refine Option.or_eq_some_iff.mpr (.inr ⟨?_, ?_⟩)
  · show (if c = c then p'.call?.map fun _ => p' else k.going c) = none
    rw [if_pos rfl, hp']
    rfl
  · exact ha.resumesAt_asleep (h.inOrder c _ hc) (h.waitingAt hc) hp'

/-- Whose request goes on after an advance had a request that went on before. -/
theorem requester_follow (h : k.Orderly) (hc : k.going c = some p)
    (ha : Advance k.system p s' p') (hq : (k.follow c s' p').stage? b = some q)
    (hr : q.requester? = some r) : ∃ q', k.stage? b = some q' ∧ q'.requester? = some r := by
  rcases h.stage?_follow hc ha hq with ⟨-, hq⟩ | ⟨rfl, ⟨-, rfl⟩ | ⟨-, hsuspends⟩⟩
  · exact ⟨q, hq, hr⟩
  · exact ⟨p, stage?_of_going hc, ha.requester? hr⟩
  · exact ⟨p, stage?_of_going hc, hsuspends.requester?.symm.trans hr⟩

end Orderly

end Crowd

end Locking
