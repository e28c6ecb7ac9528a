import Locking.Proofs.System.Interrupted
import Locking.Proofs.System.Possession
import Locking.Proofs.System.Schedule
import Locking.Proofs.System.Tethered

/-! How a manager removes a transaction.  It has to be listed and active, or the removal is refused and
changes nothing.  Otherwise it is interrupted, its stores are rolled back and its locks released, and
at last the request that it has asleep is woken, to find the interrupt.  From then on whatever its
owner asks for is refused. -/

namespace Locking.System

variable {s s' : System} {p p' : Stage} {e : Event} {r : TransactionRef} {c : CallId}
  {held : Std.ExtTreeSet EntityId} {name : LockName} {later : List Event} {hs : History}

/-! ### A transaction that has been told to end and is ending -/

/-- The transaction has been interrupted, and it has been rolled back since or is being rolled back. -/
structure Condemned (held : Std.ExtTreeSet EntityId) (r : TransactionRef) (s : System) (p : Stage) :
    Prop where
  ledger : ∃ hs, Ledger s p hs
  waiting : Waiting s p
  doomed : Doomed held r s p
  inactive : (s.transactionAt r).state ≠ .active

namespace Condemned

theorem state (h : Condemned held r s p) :
    (s.transactionAt r).state = .aborting ∨ (s.transactionAt r).state = .aborted := by
  obtain ⟨hcommitting, hcommitted⟩ := h.doomed.uncommitted
  have hactive := h.inactive
  cases hs : (s.transactionAt r).state with
  | active => exact absurd hs hactive
  | committing => exact absurd hs hcommitting
  | committed => exact absurd hs hcommitted
  | aborting => exact .inl rfl
  | aborted => exact .inr rfl

theorem canRollBack (h : Condemned held r s p) :
    (s.transactionAt r).state.canRollBack = false := by
  rcases h.state with hs | hs <;> rw [hs] <;> rfl

theorem inOrder (h : Condemned held r s p) : InOrder s p := Ledger.invariant.inOrder h.ledger

theorem invariant (held : Std.ExtTreeSet EntityId) (r : TransactionRef) :
    Invariant (fun _ _ => True) (Condemned held r) where
  inOrder := inOrder
  rest h := ⟨Ledger.invariant.rest h.ledger, h.waiting.rest,
    ((Doomed.invariant held r).rest ⟨h.ledger, h.doomed⟩).2, h.inactive⟩
  start he h hst := ⟨Ledger.invariant.start he h.ledger hst, h.waiting.start h.inOrder hst,
    h.doomed.start h.inOrder hst, State.Turns.ne_active (.begins (hst.begins h.inOrder r)) h.inactive⟩
  advance h ha := by
    obtain ⟨hs, hl⟩ := h.ledger
    exact ⟨Ledger.invariant.advance ⟨hs, hl⟩ ha, h.waiting.advance h.inOrder ha,
      h.doomed.advance hl ha, (ha.turns hl r).ne_active h.inactive⟩

/-! ### What its owner asks for -/

theorem refusal? (h : Condemned held r s p) :
    (s.transactionAt r).refusal? = some .interrupted := by
  rcases h.state with hs | hs <;> simp [Transaction.refusal?, hs, h.doomed.interrupted]

theorem step_asker (h : Condemned held r s idle) (he : e.asker? = some r) : s.step e =
    (s, if s.admits r .shared then .returned (.failed .interrupted) else .refused) := by
  cases e with
  | lock q a mode | lockAll q requests =>
    obtain rfl := Option.some.inj he
    simp only [step, withAccess, lock, lockAll, h.refusal?]
    split <;> rfl
  | _ => exact absurd he (by simp [Event.asker?])

theorem step_commit (h : Condemned held r s idle) : s.step (.commit r) =
    (s, if s.admits r .exclusive then .returned (.failed .interrupted) else .refused) := by
  have hself : { s with calls := s.calls.erase s.nextCall } = s := h.inOrder.tidy.dismiss_nextCall
  have hroll : s.rollBack s.nextCall r .exclusive (.failure .interrupted) =
      (s, .returned (.failed .interrupted)) := by
    simp only [rollBack, h.canRollBack, Bool.false_eq_true, if_false, conclusion, conclude, hself]
  simp only [step, withAccess, commit, h.doomed.interrupted, h.doomed.uncommitted.2, hroll, true_and,
    ne_eq, not_false_eq_true, if_true]
  split <;> rfl

theorem step_register (h : Condemned held r s idle) (store : Store) : s.step (.register r store) =
    (s, if s.admits r .shared then .returned (.failed (.unexpectedState (s.transactionAt r).state))
      else .refused) := by
  simp only [step, withAccess, register, if_pos h.inactive]
  split <;> rfl

/-! ### The requests that it has asleep -/

/-- A request that looks at its lock finds the interrupt and returns. -/
theorem returned_of_looking {kind : Request} {d : Deadline} {goal : Goal} {w : Bool}
    {result : System × Response} (h : Condemned held r s (.looking c r name kind d goal w))
    (ha : Advances s (.looking c r name kind d goal w) result) :
    result.2 = .returned (.failed .interrupted) := by
  have hinterrupted : ∀ {kind d w}, (s.attempt c r kind d w).isInterrupted = true :=
    h.doomed.interrupted
  cases ha with
  | step hlook hrest =>
    have hnext := (invariant held r).advance h hlook
    cases hlook with
    | sleep hj =>
      exact absurd (hinterrupted.symm.trans (Attempt.judge_eq_sleeps_iff.mp hj).1) (by simp)
    | grant hj =>
      exact absurd (hinterrupted.symm.trans (Attempt.judge_eq_granted_iff.mp hj).1) (by simp)
    | fail hj =>
      rcases Attempt.judge_eq_failed_iff.mp hj with ⟨-, rfl, -⟩ | ⟨hnot, -⟩
      · cases hrest with
        | step hfail hrest =>
          cases hfail with
          | failedSingle | abortEnded =>
            cases hrest with
            | concluded => rfl
            | step ha => nomatch ha
          | abort hroll => exact absurd (hroll.symm.trans hnext.canRollBack) (by simp)
      · exact absurd (hinterrupted.symm.trans hnot) (by simp)

/-- With the next event a request that is asleep sleeps on, or it returns that it was interrupted. -/
theorem asleep_step (h : Condemned held r s idle) (hc : s.AsleepFor r c) (e : Event)
    (later : List Event) : (s.step e).1.AsleepFor r c ∧
        s.answer? c (e :: later) = (s.step e).1.answer? c later ∨
      s.answer? c (e :: later) = some (.failed .interrupted) := by
  obtain ⟨⟨q, access, point⟩, hk, rfl, hasleep⟩ := hc
  cases hresumes : e.resumes c with
  | false =>
    refine .inl ⟨⟨_, h.inOrder.calls_step_of_not_resumes hk hresumes, rfl, hasleep⟩, ?_⟩
    rw [answer?, hresumes]
    exact Option.none_or
  | true =>
    rw [answer?, if_pos hresumes]
    have hkept : s.step e = (s, .refused) → (s.step e).1.AsleepFor q c ∧
        (s.step e).2.outcome?.or ((s.step e).1.answer? c later) =
          (s.step e).1.answer? c later := fun hrefused => by
      rw [hrefused]
      exact ⟨⟨_, hk, rfl, hasleep⟩, Option.none_or⟩
    have hreturned : (s.step e).2 = .returned (.failed .interrupted) →
        (s.step e).2.outcome?.or ((s.step e).1.answer? c later) =
          some (.failed .interrupted) := fun hr => by rw [hr]; rfl
    cases point with
    | waiting name d goal =>
      obtain rfl : access = .shared := h.inOrder.suited c _ hk
      obtain ⟨w, hmem, hwc⟩ := h.waiting.waiter c q name d goal (sleeperAt_of_call hk)
      have hw := (h.waiting.sound name).waiter?_eq_some_iff.mpr ⟨hmem, hwc⟩
      cases e with
      | wake b =>
        obtain rfl : b = c := eq_of_beq hresumes
        have hnext := (invariant held q).start trivial h (.wake hk hw)
        exact .inr (hreturned (hnext.returned_of_looking (waking_course h.inOrder.tidy hk hw)))
      | expire b =>
        obtain rfl : b = c := eq_of_beq hresumes
        by_cases hd : d = .never
        · subst hd
          exact .inl (hkept (by simp only [step, expire, hk]))
        · have hnext := (invariant held q).start trivial h (.expire hk hd hw)
          have hcourse := expiring_course h.inOrder.tidy hk hd hw
          exact .inr (hreturned (hnext.returned_of_looking hcourse))
      | reply b a =>
        obtain rfl : b = c := eq_of_beq hresumes
        exact .inl (hkept (by simp only [step, reply, hk]))
      | _ => exact absurd hresumes (by simp [Event.resumes])
    | _ => exact absurd hasleep (by simp [Point.isAsleep])

theorem asleep_run (h : Condemned held r s idle) (hc : s.AsleepFor r c) (later : List Event) :
    (s.run later).AsleepFor r c ∨ s.answer? c later = some (.failed .interrupted) := by
  induction later generalizing s with
  | nil => exact .inl hc
  | cons e later ih =>
    rcases h.asleep_step hc e later with ⟨hnext, hans⟩ | hans
    · rw [hans]
      exact ih ((invariant held r).step h trivial) hnext
    · exact .inr hans

end Condemned

/-! ### The removal -/

theorem step_remove_of_ne {state : State} (hstate : s.registeredState? r = some state)
    (hne : state ≠ .active) :
    s.step (.remove r) = (s, .returned (.failed (.unexpectedState state))) := by
  cases state with
  | active => exact absurd rfl hne
  | _ => simp only [step, remove, hstate]

theorem undoes_remove (hactive : s.registeredState? r = some .active) :
    Undoes s.nextCall r .unowned .removal (s.step (.remove r)) (s.transactionAt r).stores := by
  have hr : r ∈ s.transactions := mem_of_registeredState? hactive
  simp only [step, remove, hactive]
  exact undoes_rollBackStores (mem_transactions_modifyTransaction.mpr hr) _

theorem condemned_markRemoved (hactive : s.registeredState? r = some .active)
    (hl : Ledger s idle hs) (hw : Waiting s idle) :
    Condemned (s.transactionAt r).lockSet r (s.markRemoved r)
      (.undoing s.nextCall r .unowned .removal (s.transactionAt r).stores) := by
  have hr : r ∈ s.transactions := mem_of_registeredState? hactive
  have hst : Start s (.remove r) (s.markRemoved r) _ := .remove hactive
  exact ⟨⟨_, (hl.start hst).ledger⟩, hw.start hl.inOrder hst, doomed_markRemoved hr,
    by simp [transactionAt_markRemoved hr]⟩

/-! ### What it leaves in the wait-for graph -/

/-- Once it has ended, the transaction waits for nobody and nobody waits for it. -/
def Severed (s : System) (r : TransactionRef) : Prop :=
  (s.transactionAt r).state.isFinal = true → ∀ i j, s.graph.Waits i j → i ≠ r.id ∧ j ≠ r.id

namespace Severed

theorem start (h : s.Severed r) (ho : InOrder s idle) (he : e.usesGraph = false)
    (hst : Start s e s' p) : s'.Severed r := fun hf i j hij =>
  h ((hst.begins ho r).isFinal hf) i j (hst.waits he hij)

theorem advance (h : s.Severed r) (hm : Managed s p) (hr : r = ⟨0, r.id⟩)
    (hi : (s.transactionAt r).isInterrupted = true) (ha : Advance s p s' p') : s'.Severed r := by
  intro hf i j hij
  have hold : r.id = j ∨ r.id = i → i ≠ r.id ∧ j ≠ r.id := by
    intro hu
    rw [hr] at hf hi
    obtain ⟨hended, hbefore⟩ := hm.waits_ended ha hij (hu.imp_right fun hu => ⟨hu, hi⟩) hf
    rw [← hr] at hended
    exact h hended i j hbefore
  exact ⟨fun hir => (hold (.inr hir.symm)).1 hir, fun hjr => (hold (.inl hjr.symm)).2 hjr⟩

theorem invariant (held : Std.ExtTreeSet EntityId) (hr : r = ⟨0, r.id⟩) :
    Invariant (fun _ e => e.usesLock = false ∧ e.usesGraph = false)
      fun s p => Managed s p ∧ Condemned held r s p ∧ s.Severed r where
  inOrder h := h.1.inOrder
  rest h := ⟨Managed.invariant.rest h.1, (Condemned.invariant held r).rest h.2.1, h.2.2⟩
  start he h hst := ⟨Managed.invariant.start he.1 h.1 hst,
    (Condemned.invariant held r).start trivial h.2.1 hst, h.2.2.start h.1.inOrder he.2 hst⟩
  advance h ha := ⟨Managed.invariant.advance h.1 ha, (Condemned.invariant held r).advance h.2.1 ha,
    h.2.2.advance h.1 hr h.2.1.doomed.interrupted ha⟩

end Severed

/-! ### One request at a time -/

/-- No call of transaction `r` is asleep. -/
def Awake (s : System) (r : TransactionRef) : Prop := ∀ c, ¬ s.AsleepFor r c

instance : Decidable (s.Awake r) :=
  decidable_of_iff (∀ entry ∈ s.calls.toList, entry.2.transaction = r →
    entry.2.point.isAsleep = false) <| by
    simp only [Awake, AsleepFor, not_exists, not_and, Prod.forall, Bool.not_eq_true,
      Std.ExtTreeMap.mem_toList_iff_getElem?_eq_some]

/-- Locks are used through their transactions only, and transaction `r` makes no request while another
one of it is asleep. -/
def OneByOne (r : TransactionRef) (s : System) (e : Event) : Prop :=
  e.usesLock = false ∧ (e.asker? = some r → s.Awake r)

instance : Decidable (s.OneByOne r e) :=
  inferInstanceAs (Decidable (_ ∧ (_ → _)))

/-- No request of transaction `r` is about to look at its lock again. -/
def SettledFor (s : System) (r : TransactionRef) : Prop :=
  ∀ name, ∀ w ∈ (s.lockAt name).waiters, w.transaction = r.id → w.isNotified = false

/-- A waiter belongs to a call that is asleep for its transaction. -/
theorem Managed.asleepFor {w : Waiter} (h : Managed s p) (hw : w ∈ (s.lockAt name).waiters) :
    s.AsleepFor ⟨0, w.transaction⟩ w.call := by
  obtain ⟨d, goal, hk⟩ := h.waiting.call_of_waiter h.inOrder h.recorded.single hw
  exact ⟨_, hk, rfl, rfl⟩

/-- A call that is asleep has a waiter on its lock. -/
theorem Waiting.exists_waiter (h : Waiting s p) (hc : s.AsleepFor r c) :
    ∃ name, ∃ w ∈ (s.lockAt name).waiters, w.transaction = r.id := by
  obtain ⟨⟨q, access, point⟩, hk, rfl, hasleep⟩ := hc
  cases point with
  | waiting name d goal =>
    obtain ⟨w, hmem, rfl⟩ := h.waiter c q name d goal (sleeperAt_of_call hk)
    obtain ⟨q', d', goal', hsleep, hid⟩ := h.caller name w hmem
    cases (sleeperAt_of_call hk).symm.trans hsleep
    exact ⟨name, w, hmem, hid.symm⟩
  | _ => exact absurd hasleep (by simp [Point.isAsleep])

/-- What is known of a transaction that makes one request at a time: it knows on which lock it waits. -/
structure Tied (r : TransactionRef) (s : System) (p : Stage) : Prop where
  managed : Managed s p
  lone : Lone r s p
  tethered : TetheredAt r.id s p

namespace Tied

theorem rest {response : Response} (h : Tied r s (.concluded response)) : Tied r s idle :=
  ⟨Managed.invariant.rest h.managed, ⟨h.lone.once, by simp [Stage.requester?]⟩, h.tethered.rest⟩

theorem start (h : Tied r s idle) (he : e.usesLock = false)
    (hasker : e.asker? = some r → (s.transactionAt r).state = .active → s.Awake r)
    (hst : Start s e s' p) : Tied r s' p :=
  ⟨Managed.invariant.start he h.managed hst, h.lone.start h.managed.inOrder he hasker hst,
    h.tethered.start h.managed.inOrder h.managed.waiting he hst⟩

theorem advance (h : Tied r s p) (hr : r = ⟨0, r.id⟩) (ha : Advance s p s' p') : Tied r s' p' := by
  refine ⟨Managed.invariant.advance h.managed ha, h.lone.advance ha,
    h.tethered.advance h.managed.inOrder h.managed.waiting h.managed.recorded ?_ ha⟩
  intro hp name w hw hwr
  have hasleep := h.managed.asleepFor hw
  rw [hwr, ← hr] at hasleep
  exact h.lone.awake (hr ▸ hp) w.call hasleep

theorem invariant (hr : r = ⟨0, r.id⟩) : Invariant (OneByOne r) (Tied r) where
  inOrder h := h.managed.inOrder
  rest := rest
  start he h hst := h.start he.1 (fun hasker _ => he.2 hasker) hst
  advance h ha := h.advance hr ha

/-- A transaction that is ending gets no further request. -/
theorem invariant_condemned (held : Std.ExtTreeSet EntityId) (hr : r = ⟨0, r.id⟩) :
    Invariant (fun _ e => e.usesLock = false) fun s p => Tied r s p ∧ Condemned held r s p where
  inOrder h := h.1.managed.inOrder
  rest h := ⟨h.1.rest, (Condemned.invariant held r).rest h.2⟩
  start he h hst := ⟨h.1.start he (fun _ hactive => absurd hactive h.2.inactive) hst,
    (Condemned.invariant held r).start trivial h.2 hst⟩
  advance h ha := ⟨h.1.advance hr ha, (Condemned.invariant held r).advance h.2 ha⟩

theorem of_awake (hm : Managed s idle) (hr : r = ⟨0, r.id⟩) (hno : s.Awake r) :
    Tied r s idle := by
  refine ⟨hm, ⟨fun b _ hb => absurd hb (hno b), by simp [Stage.requester?]⟩, .of_awake ?_⟩
  intro name w hw hwr
  have hasleep := hm.asleepFor hw
  rw [hwr, ← hr] at hasleep
  exact hno w.call hasleep

/-- When it has been aborted and all its wake-ups have come, no request of it is left. -/
theorem awake (h : Tied r s idle) (hr : r = ⟨0, r.id⟩)
    (hs : (s.transactionAt r).state = .aborted) (hi : (s.transactionAt r).isInterrupted = true)
    (hsettled : s.SettledFor r) : s.Awake r := by
  intro c hc
  obtain ⟨name, w, hmem, hwr⟩ := h.managed.waiting.exists_waiter hc
  have hremoving := h.tethered.called name w hmem hwr (hsettled name w hmem hwr) (hr ▸ hi)
  rw [← hr] at hremoving
  obtain ⟨c, access, stores, hp⟩ | ⟨c, access, store, rest, hk⟩ := hremoving
  · exact absurd hp (by simp)
  · obtain ⟨hs', hl⟩ := h.managed.ledger
    have hstate := ((hl.entry r).calling c .rollback store rest (taskAt_of_call hk rfl)).1
    exact absurd (hs.symm.trans hstate) (by simp [Phase.state])

end Tied

/-! ### The removal and what follows -/

theorem condemned_remove (hactive : s.registeredState? r = some .active) (hl : Ledger s idle hs)
    (hw : Waiting s idle) : Condemned (s.transactionAt r).lockSet r (s.step (.remove r)).1 idle :=
  (Condemned.invariant _ r).advances (condemned_markRemoved hactive hl hw)
    (hl.inOrder.tidy.removing_course hactive)

theorem severed_remove (hactive : s.registeredState? r = some .active) (hm : Managed s idle)
    (hr : r = ⟨0, r.id⟩)
    (hlocks : Obeys (fun _ e => e.usesLock = false) (s.step (.remove r)).1 later)
    (hgraph : Obeys (fun _ e => e.usesGraph = false) (s.step (.remove r)).1 later) :
    ((s.step (.remove r)).1.run later).Severed r := by
  obtain ⟨hs, hl⟩ := hm.ledger
  have hmanaged := Managed.invariant.start rfl hm (.remove hactive)
  have hended : ¬ ((s.markRemoved r).transactionAt r).state.isFinal = true := by
    simp [transactionAt_markRemoved (mem_of_registeredState? hactive), State.isFinal]
  have hinvariant := Severed.invariant (s.transactionAt r).lockSet hr
  have hremoved := hinvariant.advances
    ⟨hmanaged, condemned_markRemoved hactive hl hm.waiting, fun hf => absurd hf hended⟩
    (hm.inOrder.tidy.removing_course hactive)
  exact (hinvariant.run hremoved (hlocks.and hgraph)).2.2

/-- Once no call of the removed transaction is asleep any more, each one that was has returned that it
was interrupted. -/
theorem answer?_remove (hactive : s.registeredState? r = some .active) (hm : Managed s idle)
    (hc : s.AsleepFor r c) (later : List Event)
    (hawake : ((s.step (.remove r)).1.run later).Awake r) :
    (s.step (.remove r)).1.answer? c later = some (.failed .interrupted) := by
  obtain ⟨hs, hl⟩ := hm.ledger
  obtain ⟨k, hk, hkr, hasleep⟩ := hc
  have hc' : (s.step (.remove r)).1.AsleepFor r c :=
    ⟨k, hm.inOrder.calls_step_of_not_resumes hk rfl, hkr, hasleep⟩
  exact ((condemned_remove hactive hl hm.waiting).asleep_run hc' later).resolve_left (hawake c)

/-- After the removal of a transaction that makes one request at a time, none is left asleep when all
wake-ups have come. -/
theorem Tied.awake_remove (h : Tied r s idle) (hr : r = ⟨0, r.id⟩)
    (hactive : s.registeredState? r = some .active)
    (hlocks : Obeys (fun _ e => e.usesLock = false) (s.step (.remove r)).1 later)
    (haborted : (((s.step (.remove r)).1.run later).transactionAt r).state = .aborted)
    (hsettled : ((s.step (.remove r)).1.run later).SettledFor r) :
    ((s.step (.remove r)).1.run later).Awake r := by
  obtain ⟨hs, hl⟩ := h.managed.ledger
  have hremove : OneByOne r s (.remove r) := ⟨rfl, by simp [Event.asker?]⟩
  have hremoved := (Tied.invariant hr).step h hremove
  obtain ⟨htied, hcondemned⟩ := (Tied.invariant_condemned _ hr).run
    ⟨hremoved, condemned_remove hactive hl h.managed.waiting⟩ hlocks
  exact htied.awake hr haborted hcondemned.doomed.interrupted hsettled

/-- Whatever its owner asks for, the transaction is told that it was interrupted, or at least that it
is not active, and nothing changes. -/
structure Silenced (s : System) (r : TransactionRef) : Prop where
  asks : ∀ e, e.asker? = some r → s.step e =
    (s, if s.admits r .shared then .returned (.failed .interrupted) else .refused)
  commits : s.step (.commit r) =
    (s, if s.admits r .exclusive then .returned (.failed .interrupted) else .refused)
  registers : ∀ store, s.step (.register r store) =
    (s, if s.admits r .shared then .returned (.failed (.unexpectedState (s.transactionAt r).state))
      else .refused)

/-- The transaction has been removed.  Its store calls are given. -/
structure Removed (s : System) (r : TransactionRef) (calls : History) : Prop where
  aborted : (s.transactionAt r).state = .aborted
  interrupted : (s.transactionAt r).isInterrupted = true
  unlisted : s.registeredState? r = none
  undone : ∀ store ∈ (s.transactionAt r).stores,
    ∃ k a, calls.ofStore store.key .rollback = [k] ∧ k.reply? = some a

/-- The removal of a transaction by its manager, in any run of any number of managers.  It is refused
without any change if the transaction is not listed or not active.  Otherwise it asks the stores of
the transaction to roll back, one after the other, and returns success with the last reply; by then
the transaction is aborted, interrupted and not listed any more, and each store has been asked once.
From the removal on, whatever the owner asks for is refused without any change.  If there is one
manager and locks are used through it alone, the removed transaction has no lock and waits to upgrade
none, and it has no edge in the wait-for graph unless the graph has been used directly since; and if
it made its requests one by one, at least since a moment at which none was asleep, then as soon as no
request of it is about to look at its lock again, each request that was asleep has returned that it
was interrupted. -/
theorem removed_for_good (g : Granularity) (configs : List Config) (lockConfig : Config)
    (events : List Event) (r : TransactionRef) :
    let fresh := System.new g configs lockConfig
    let s := fresh.run events
    (s.registeredState? r = none → s.step (.remove r) = (s, .returned (.failed .notFound))) ∧
    (∀ state, s.registeredState? r = some state → state ≠ .active →
      s.step (.remove r) = (s, .returned (.failed (.unexpectedState state)))) ∧
    (s.registeredState? r = some .active → ∀ later,
      let all := events ++ .remove r :: later
      let next := (s.step (.remove r)).1
      let s' := fresh.run all
      let stores := (s.transactionAt r).stores
      let n := replies s.nextCall later
      (fresh.history all).requestsOf r = rollbacks r stores (n + 1) ∧
      (s.step (.remove r)).2.outcome?.or (next.returned? s.nextCall later) =
        (if stores.length ≤ n then some (.ok .unit) else none) ∧
      s'.Silenced r ∧
      (stores.length ≤ n → s'.Removed r ((fresh.history all).of r) ∧
        (configs.length = 1 → Obeys (fun _ e => e.usesLock = false) fresh all →
          (∀ name, r.id ∉ (s'.lockAt name).owners ∧ r.id ∉ (s'.lockAt name).upgraders) ∧
          (Obeys (fun _ e => e.usesGraph = false) next later →
            s'.graph.waitsFor r.id = [] ∧ ∀ i, r.id ∉ s'.graph.waitsFor i) ∧
          ∀ before recent, events = before ++ recent → (fresh.run before).Awake r →
            Obeys (OneByOne r) (fresh.run before) recent → s'.SettledFor r → s'.Awake r ∧
              ∀ c, s.AsleepFor r c → next.answer? c later = some (.failed .interrupted)))) := by
  intro fresh s
  have hl : Ledger s idle (fresh.history events) :=
    ((Ledger.new g configs lockConfig).run events).ledger
  have hw : Waiting s idle := (Waiting.invariant.run
    ⟨.new g configs lockConfig, .new g configs lockConfig⟩
    (Obeys.trivial fresh events)).2
  refine ⟨fun hnone => by simp only [step, remove, hnone], fun state => step_remove_of_ne,
    fun hactive later => ?_⟩
  intro all next s' stores n
  have hrun : s' = next.run later := run_append fresh events (.remove r :: later)
  have hhistory : fresh.history all = next.historyFrom
      (((fresh.history events).answered (.remove r)).noted (s.step (.remove r)).2) later :=
    historyFrom_append fresh [] events (.remove r :: later)
  have hcondemned : Condemned _ r s' idle := hrun ▸
    (Condemned.invariant _ r).run (condemned_remove hactive hl hw) (Obeys.trivial next later)
  obtain ⟨hcalls, hreturned, hend⟩ :=
    (undoes_remove hactive).run_of_active hl (state_of_registeredState? hactive) later
  refine ⟨hhistory ▸ hcalls, hreturned, ⟨fun e => hcondemned.step_asker, hcondemned.step_commit,
    hcondemned.step_register⟩, fun hle => ?_⟩
  have haborted : (s'.transactionAt r).state = .aborted := hrun ▸ (hend hle).2
  have hf : (s'.transactionAt r).state.isFinal = true := by rw [haborted]; rfl
  have hentry := ((Ledger.new g configs lockConfig).run all).ledger.entry r
  refine ⟨⟨haborted, hcondemned.doomed.interrupted,
    registeredState?_eq_none (departed_run g configs lockConfig all r) hf,
    fun store hmem => hentry.rolls_back_once haborted hmem⟩, ?_⟩
  intro hsingle hlocks
  obtain ⟨config, rfl⟩ := List.length_eq_one_iff.mp hsingle
  obtain ⟨hbefore, -, hlater⟩ := obeys_append.mp hlocks
  have hnew : Managed fresh idle := .new g config lockConfig
  have hm : Managed s idle := Managed.invariant.run hnew hbefore
  have hm' : Managed s' idle := Managed.invariant.run hnew hlocks
  have hr : r = ⟨0, r.id⟩ := hm.recorded.ref_eq hm.inOrder (mem_of_registeredState? hactive)
  refine ⟨fun name => not_or.mp (hm'.recorded.not_has_of_isFinal rfl (hr ▸ hf) name), ?_, ?_⟩
  · intro hgraph
    have hsevered : s'.Severed r := hrun ▸ severed_remove hactive hm hr hlater hgraph
    refine ⟨List.eq_nil_iff_forall_not_mem.mpr fun j hj => ?_, fun i hi => ?_⟩
    · exact (hsevered hf r.id j (Std.ExtTreeSet.mem_toList.mp hj)).1 rfl
    · exact (hsevered hf i r.id (Std.ExtTreeSet.mem_toList.mp hi)).2 rfl
  · rintro before recent rfl hawake hone hsettled
    have hm₀ := Managed.invariant.run hnew (obeys_append.mp hbefore).1
    have hrun₀ : s = (fresh.run before).run recent := run_append fresh before recent
    have htied : Tied r s idle :=
      hrun₀ ▸ (Tied.invariant hr).run (.of_awake hm₀ hr hawake) hone
    have hawake' : s'.Awake r :=
      hrun ▸ htied.awake_remove hr hactive hlater (hrun ▸ haborted) (hrun ▸ hsettled)
    exact ⟨hawake', fun c hc =>
      answer?_remove hactive hm hc later (hrun ▸ hawake')⟩

/-- A transaction with a store is removed while it is asleep in an upgrade of a lock that it has given
up.  When its store has replied it is woken and told so, and the lock is left to the other reader.  In
the meantime it cannot be removed a second time, and afterwards it is not found. -/
theorem removed_in_upgrade :
    let log : Store := ⟨0, "log"⟩
    let r : TransactionRef := ⟨0, 1⟩
    let a : LockName := .entity ⟨["a"]⟩
    let events : List Event := [.begin 0, .begin 0, .register r log, .lock r ⟨["a"]⟩ .shared,
      .lock ⟨0, 2⟩ ⟨["a"]⟩ .shared, .lock r ⟨["a"]⟩ .exclusive]
    let later : List Event := [.reply 1 .done, .wake 0]
    let fresh := System.new .flat [{}] {}
    let s := fresh.run events
    let next := (s.step (.remove r)).1
    let s' := fresh.run (events ++ .remove r :: later)
    let hs := fresh.history (events ++ .remove r :: later)
    (s.registeredState? r = some .active ∧ s.AsleepFor r 0 ∧ 1 ∈ (s.lockAt a).upgraders ∧
      Obeys (OneByOne r) fresh events ∧ s'.Settled) ∧
    hs.requestsOf r = [⟨log, r, .rollback⟩] ∧ next.returned? 1 later = some (.ok .unit) ∧
      s'.Silenced r ∧ s'.Removed r (hs.of r) ∧
      (1 ∉ (s'.lockAt a).owners ∧ 1 ∉ (s'.lockAt a).upgraders) ∧ s'.graph.waitsFor 1 = [] ∧
      s'.Awake r ∧ next.answer? 0 later = some (.failed .interrupted) ∧
      next.step (.remove r) = (next, .returned (.failed (.unexpectedState .aborting))) ∧
      s'.step (.remove r) = (s', .returned (.failed .notFound)) := by
  intro log r a events later fresh s next s' hs
  have hactive : s.registeredState? r = some .active := by decide +kernel
  have hasleep : s.AsleepFor r 0 :=
    ⟨⟨r, .shared, .waiting a .never (.plan ⟨["a"]⟩ [])⟩, by decide +kernel, rfl, rfl⟩
  have hone : Obeys (OneByOne r) fresh events := by decide +kernel
  have hsettled : s'.Settled := by decide +kernel
  have hlocks : Obeys (fun _ e => e.usesLock = false) fresh (events ++ .remove r :: later) := by
    decide +kernel
  obtain ⟨hcalls, hreturned, hsilenced, hend⟩ :=
    (removed_for_good .flat [{}] {} events r).2.2 hactive later
  have hreplies : (s.transactionAt r).stores.length ≤ replies s.nextCall later := by decide +kernel
  obtain ⟨hremoved, hmanaged⟩ := hend hreplies
  obtain ⟨hunlocked, hunlinked, hsleepers⟩ := hmanaged rfl hlocks
  obtain ⟨hawake, hanswers⟩ := hsleepers [] events rfl (by decide +kernel) hone
    fun name w hw _ => hsettled name w hw
  have haborting : next.registeredState? r = some .aborting := by decide +kernel
  have hnext : fresh.run (events ++ [.remove r]) = next := run_append fresh events [.remove r]
  have hagain := (removed_for_good .flat [{}] {} (events ++ [.remove r]) r).2.1 .aborting
  rw [hnext] at hagain
  have hgone := (removed_for_good .flat [{}] {} (events ++ .remove r :: later) r).1
    hremoved.unlisted
  exact ⟨⟨hactive, hasleep, by decide +kernel, hone, hsettled⟩, hcalls.trans (by decide +kernel),
    by decide +kernel, hsilenced, hremoved, hunlocked a,
    (hunlinked (by decide +kernel)).1, hawake, hanswers 0 hasleep,
    hagain haborting (by decide), hgone⟩

/-- Calls that go on side by side may keep a removed transaction alive.  A commit has found its
transaction active when the manager removes it; the removal has its store rolled back and returns
success, and then the commit goes on all the same, calls the store again and returns success as well. -/
theorem committed_after_removal :
    let log : Store := ⟨0, "log"⟩
    let r : TransactionRef := ⟨0, 1⟩
    let fresh := System.new .flat [{}] {}
    let s := fresh.run [.begin 0, .register r log]
    let removes : List Deed := [.event (.commit r), .number, .event (.remove r), .advance 1,
      .event (.reply 1 .done)]
    let commits : List Deed := [.advance 1, .advance 0, .advance 0, .event (.reply 0 .done),
      .advance 0, .advance 0, .event (.reply 0 .done)]
    ∃ k ∈ (Crowd.still s).runs? (fun _ _ => true) removes,
      ∃ k' ∈ k.runs? (fun _ _ => true) commits,
        Crowd.Leads (fun _ _ => True) (.still fresh) k ∧ k.Returns 1 (.ok .unit) ∧
          Crowd.Leads (fun _ _ => True) k k' ∧ k'.Returns 0 (.ok .unit) := by
  intro log r fresh s removes commits
  obtain ⟨k, hrun, k', hrun', ⟨p, hp, hcall, hnext⟩, p', hp', hcall', hnext'⟩ :
      ∃ k ∈ (Crowd.still s).runs? (fun _ _ => true) removes,
        ∃ k' ∈ k.runs? (fun _ _ => true) commits,
          (∃ p ∈ k.going 1, p.call?.isSome ∧
            (k.system.next p).2 = .concluded (.returned (.ok .unit))) ∧
          ∃ p ∈ k'.going 0, p.call?.isSome ∧
            (k'.system.next p).2 = .concluded (.returned (.ok .unit)) := by
    decide +kernel
  have hnew : (Crowd.still fresh).Orderly := .still (.new _ _ _) (.new _ _ _)
  have hs : Crowd.Leads (fun _ _ => True) (.still fresh) (.still s) :=
    .run (fun _ _ => trivial) (fun _ => trivial) (.new _ _ _) (Obeys.trivial fresh _) .refl
  have hk := hs.runs (fun _ _ => trivial) (hs.preserve hnew fun h _ => h.step) hrun
  have hk' : Crowd.Leads (fun _ _ => True) k k' :=
    .runs (fun _ _ => trivial) (hk.preserve hnew fun h _ => h.step) .refl hrun'
  exact ⟨k, hrun, k', hrun', hk, Crowd.returns_of_next hp hcall hnext, hk',
    Crowd.returns_of_next hp' hcall' hnext'⟩

end Locking.System
