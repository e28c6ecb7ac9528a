import Locking.Proofs.System.Ongoing
import Locking.Proofs.System.Registry

/-! How a lock call ends.  It gets all that it needs, or it is refused because its transaction is not
active any more, or it takes its transaction down with it: whatever the reason and wherever on its way
it fails, the transaction is rolled back, unless another call is about to do that. -/

namespace Locking

/-- No transaction has committed by beginning to end. -/
theorem State.Begins.ne_committed {a b : State} (h : a.Begins b) (ha : a ≠ .committed) :
    b ≠ .committed := by
  cases h with
  | stay => exact ha
  | _ => simp

/-- A request fails with an error after which its transaction can be tried again. -/
theorem Attempt.isRetryable_of_failed {a : Attempt} {l : Lock} {g g' : WaitForGraph} {error : Error}
    (hj : a.judge l g = (g', .failed error)) : error.isRetryable = true := by
  rcases Attempt.judge_eq_failed_iff.mp hj with ⟨-, rfl, -⟩ | ⟨-, -, ⟨-, rfl, -⟩ | ⟨-, hwait⟩⟩
  · rfl
  · rfl
  · obtain ⟨rfl, -⟩ := WaitForGraph.wait_eq_error hwait
    rfl

theorem Error.mem_of_isRetryable {error : Error} (h : error.isRetryable = true) :
    error ∈ [Error.deadlock, .interrupted, .timeout] := by
  cases error with
  | deadlock | interrupted | timeout => simp
  | _ => exact absurd h (by simp [isRetryable])

namespace System

variable {s s' t : System} {p p' q : Stage} {e : Event} {r : TransactionRef} {c : CallId}
  {hs : History} {outcome : Outcome} {later : List Event} {i j : TransactionId}

/-! ### One manager -/

/-- What is known of one manager whose locks are taken through it alone. -/
structure Managed (s : System) (p : Stage) : Prop where
  ledger : ∃ hs, Ledger s p hs
  waiting : Waiting s p
  recorded : Recorded s p

namespace Managed

theorem inOrder (h : Managed s p) : InOrder s p := Ledger.invariant.inOrder h.ledger

/-- The transaction of a call that goes on is named by its number. -/
theorem ref_eq {access : Access} (h : Managed s p) (hu : p.user? = some (r, access)) :
    r = ⟨0, r.id⟩ :=
  h.recorded.ref_eq h.inOrder (h.inOrder.user r access hu)

/-- A transaction that has ended was begun by the one manager. -/
theorem ref_eq_of_isFinal (h : Managed s p) (hf : (s.transactionAt r).state.isFinal = true) :
    r = ⟨0, r.id⟩ := by
  refine h.recorded.ref_eq h.inOrder ?_
  by_contra hn
  rw [transactionAt_of_not_mem hn] at hf
  exact absurd hf (by simp [default, State.isFinal])

theorem invariant : Invariant (fun _ e => e.usesLock = false) Managed where
  inOrder := inOrder
  rest h := ⟨Ledger.invariant.rest h.ledger, h.waiting.rest, h.recorded.rest⟩
  start he h hst := ⟨Ledger.invariant.start trivial h.ledger hst, h.waiting.start h.inOrder hst,
    h.recorded.start h.inOrder he hst⟩
  advance h ha := ⟨Ledger.invariant.advance h.ledger ha, h.waiting.advance h.inOrder ha,
    h.recorded.advance h.inOrder h.waiting ha⟩

theorem new (g : Granularity) (config lockConfig : Config) :
    Managed (System.new g [config] lockConfig) idle :=
  ⟨⟨[], .new g [config] lockConfig⟩, .new g [config] lockConfig, .new g config lockConfig⟩

end Managed

/-! ### Edges of the wait-for graph -/

/-- Whoever has an edge after a transaction has been retired is another one, and has not ended just
now. -/
theorem Managed.ended_before_retire {access : Access} {state : State} (h : Managed s p)
    (hu : p.user? = some (r, access)) (hij : ((s.setState r state).retire r).graph.Waits i j)
    {u : TransactionId} (huij : u = i ∨ u = j)
    (hf : (((s.setState r state).retire r).transactionAt ⟨0, u⟩).state.isFinal = true) :
    (s.transactionAt ⟨0, u⟩).state.isFinal = true := by
  obtain ⟨hi, hj, -⟩ := waits_retire.mp hij
  have hother : (⟨0, u⟩ : TransactionRef) ≠ r := by
    rw [h.ref_eq hu]
    rintro ⟨⟩
    exact huij.elim (fun hui => hi hui.symm) fun huj => hj huj.symm
  have hmoves : Moves s ((s.setState r state).retire r) r state :=
    (moves_setState (h.inOrder.user r access hu) state).congr fun _ => ending_retire
  rwa [hmoves.other _ hother] at hf

/-- An edge that leads to a transaction which has ended was there before, when the transaction had
ended as well; and so was one that leads away from it, if it has been interrupted. -/
theorem Managed.waits_ended (h : Managed s p) (ha : Advance s p s' p') (hij : s'.graph.Waits i j)
    {u : TransactionId}
    (hu : u = j ∨ u = i ∧ (s.transactionAt ⟨0, u⟩).isInterrupted = true)
    (hf : (s'.transactionAt ⟨0, u⟩).state.isFinal = true) :
    (s.transactionAt ⟨0, u⟩).state.isFinal = true ∧ s.graph.Waits i j := by
  have huij : u = i ∨ u = j := hu.symm.imp_left And.left
  have hbegins := ha.begins h.inOrder h.ledger.choose_spec.current
  rcases ha.waits_or_blocked hij with
    ⟨hold, -⟩ | ⟨c, r, name, kind, d, goal, w, rfl, -, rfl, hi, hblocks⟩
  · refine ⟨?_, hold⟩
    have hstill := fun hp => (hbegins hp ⟨0, u⟩).isFinal hf
    cases ha with
    | undone | committed => exact h.ended_before_retire rfl hij huij hf
    | removed =>
      rw [graph_alert] at hij
      rw [transactionAt_alert] at hf
      exact h.ended_before_retire rfl hij huij hf
    | _ => exact hstill (by simp [Stage.task?])
  · exfalso
    rcases hu with rfl | ⟨rfl, hint⟩
    · -- Who is in the way of a request has the lock, and who has ended has none.
      have hended := (hbegins (by simp [Stage.task?]) ⟨0, u⟩).isFinal hf
      exact h.recorded.not_has_of_isFinal rfl hended name (Lock.has_of_mem_blockers hblocks).2
    · rw [← h.ref_eq rfl, hi] at hint
      exact absurd hint (by simp)

/-- Nobody waits for a transaction that has ended. -/
def Unawaited (s : System) : Prop :=
  ∀ i j, s.graph.Waits i j → (s.transactionAt ⟨0, j⟩).state.isFinal = false

namespace Unawaited

theorem start (h : s.Unawaited) (hm : Managed s idle) (he : e.usesGraph = false)
    (hst : Start s e s' p) : s'.Unawaited := by
  intro i j hij
  refine Bool.eq_false_iff.mpr fun hf => ?_
  have hended := (hst.begins hm.inOrder ⟨0, j⟩).isFinal hf
  exact absurd (hended.symm.trans (h i j (hst.waits he hij))) (by simp)

theorem advance (h : s.Unawaited) (hm : Managed s p) (ha : Advance s p s' p') : s'.Unawaited := by
  intro i j hij
  refine Bool.eq_false_iff.mpr fun hf => ?_
  obtain ⟨hended, hold⟩ := hm.waits_ended ha hij (.inl rfl) hf
  exact absurd (hended.symm.trans (h i j hold)) (by simp)

theorem invariant : Invariant (fun _ e => e.usesLock = false ∧ e.usesGraph = false)
    fun s p => Managed s p ∧ s.Unawaited where
  inOrder h := h.1.inOrder
  rest h := ⟨Managed.invariant.rest h.1, h.2⟩
  start he h hst := ⟨Managed.invariant.start he.1 h.1 hst, h.2.start h.1 he.2 hst⟩
  advance h ha := ⟨Managed.invariant.advance h.1 ha, h.2.advance h.1 ha⟩

theorem new (g : Granularity) (configs : List Config) (lockConfig : Config) :
    (System.new g configs lockConfig).Unawaited :=
  fun _ _ hij => absurd hij.mem (by simp)

end Unawaited

/-! ### What a call has come to -/

/-- A transaction number waits for nobody. -/
def Unhindered (s : System) (i : TransactionId) : Prop := ∀ j, ¬ s.graph.Waits i j

/-- A call in progress rolls a transaction back. -/
def RollingBack (s : System) (r : TransactionRef) : Prop :=
  ∃ (c : CallId) (k : Call), s.calls[c]? = some k ∧ k.transaction = r ∧
    ∃ store rest cause, k.point = .rollingBack store rest cause

/-- How a lock call leaves its transaction when it returns. -/
inductive Leaves (s : System) (r : TransactionRef) : Outcome → Prop
  | active (hs : (s.transactionAt r).state = .active) : Leaves s r (.ok .unit)
  | aborted {error : Error} (he : error.isRetryable = true)
    (hs : (s.transactionAt r).state = .aborted) (hg : s.Unhindered r.id) :
    Leaves s r (.failed error)
  | aborting {error : Error} (he : error.isRetryable = true)
    (hs : (s.transactionAt r).state = .aborting) (hr : s.RollingBack r) : Leaves s r (.failed error)

/-- What is known of a lock call at each stage.  As long as it has not been asleep, its transaction is
active. -/
def Fares (s : System) (r : TransactionRef) : Stage → Prop
  | .concluded response => ∀ outcome, response = .returned outcome → s.Leaves r outcome
  | .taking _ q _ _ => q = r ∧ (s.transactionAt r).state = .active
  | .looking _ q _ _ _ _ w | .granted _ q _ _ w =>
    q = r ∧ (w = false → (s.transactionAt r).state = .active)
  | .failed _ q _ error => q = r ∧ error.isRetryable = true ∧
      ((s.transactionAt r).state = .active ∨ s.Unhindered r.id)
  | .undoing _ q access cause _ => q = r ∧ access = .shared ∧
      ∃ error, error.isRetryable = true ∧ cause = .failure error
  | .deciding .. | .preparing .. | .committing .. => False

/-- A transaction that is aborting while no call goes on to roll it back is being rolled back by a call
in progress. -/
theorem Ledger.rollingBack (h : Ledger s p hs) (hp : p.task? = none)
    (hr : (s.transactionAt r).state = .aborting) : s.RollingBack r := by
  obtain ⟨c, ⟨phase, store, rest⟩, hc⟩ | ⟨c, task, hc⟩ := (h.entry r).underway .rollback hr
  · obtain ⟨k, hk, hkr, htask⟩ := taskAt_eq_some hc
    have hphase := ((h.entry r).calling c phase store rest hc).1
    refine ⟨c, k, hk, hkr, ?_⟩
    cases hpoint : k.point with
    | waiting =>
      rw [hpoint] at htask
      exact absurd htask (by simp [Point.task?])
    | preparing | committing =>
      rw [hpoint] at htask
      cases htask
      exact absurd (hr.symm.trans hphase) (by simp [Phase.state])
    | rollingBack store rest cause => exact ⟨store, rest, cause, rfl⟩
  · rw [hp] at hc
    exact absurd hc (by simp)

/-- Only the call that has asked all stores to commit has its transaction committed. -/
theorem Advance.ne_committed (hl : Ledger s p hs) (ha : Advance s p s' p')
    (hp : ∀ c, p.task? ≠ some (c, r, .commit, [])) (hr : (s.transactionAt r).state ≠ .committed) :
    (s'.transactionAt r).state ≠ .committed := by
  by_cases hdone : ∃ c q phase, p.task? = some (c, q, phase, []) ∧ phase ≠ .prepare
  · obtain ⟨c, q, phase, htask, hne⟩ := hdone
    obtain ⟨state, hmoves, -, hturns⟩ := hl.moves_of_done ha htask hne
    by_cases hq : r = q
    · subst hq
      rw [hmoves.self]
      cases phase with
      | prepare => exact absurd rfl hne
      | commit => exact absurd htask (hp c)
      | rollback =>
        rintro rfl
        cases hturns with
        | begins h => exact h.ne_committed (by simp [Phase.state]) rfl
    · rw [hmoves.other r hq]
      exact hr
  · refine (ha.begins hl.inOrder hl.current (fun c q phase htask => ?_) r).ne_committed hr
    exact not_not.mp fun hne => hdone ⟨c, q, phase, htask, hne⟩

namespace Fares

/-- Of a call in progress nothing is said that depends on the system. -/
theorem resting (h : s.Fares r q) (hq : t.resumesAt c = some q) : s'.Fares r q := by
  rw [resumesAt] at hq
  split at hq
  · obtain ⟨kind, -, rfl⟩ := Option.map_eq_some_iff.mp hq
    exact ⟨h.1, by simp⟩
  · cases hq; exact h
  · cases hq; exact h
  · cases hq; exact h
  · exact absurd hq (by simp)

theorem suspended (h : s.Fares r p) (hq : p.Suspends q) : s'.Fares r q := by
  cases hq with
  | asleep => exact ⟨h.1, by simp⟩
  | _ => exact h

/-- A lock call makes a shared use of its transaction. -/
theorem user? (h : s.Fares r q) (hc : q.call? = some c) : q.user? = some (r, .shared) := by
  cases q with
  | concluded => exact absurd hc (by simp [Stage.call?])
  | taking | looking | granted | failed => rw [← h.1]; rfl
  | undoing =>
    obtain ⟨rfl, rfl, -⟩ := h
    rfl
  | deciding | preparing | committing => exact h.elim

theorem advance (h : s.Fares r p) (hm : Managed s p) (hr : (s.transactionAt r).state ≠ .committed)
    (ha : Advance s p s' p') : s'.Fares r p' := by
  have huser := hm.inOrder.user
  have hstage := hm.recorded.stage
  obtain ⟨hs, hl⟩ := hm.ledger
  cases ha with
  | done =>
    rintro _ ⟨⟩
    exact .active h.2
  | refuse => exact ⟨h.1, rfl, .inl h.2⟩
  | covered => exact ⟨h.1, fun _ => h.2⟩
  | ask => exact ⟨h.1, fun _ => state_setWaitingOn.trans h.2⟩
  | sleep | undo => exact fun _ hreturned => absurd hreturned (by simp)
  | grant => exact ⟨h.1, fun hw => state_setWaitingOn.trans (h.2 hw)⟩
  | @fail c q name kind d goal w g error hj =>
    obtain ⟨rfl, hactive⟩ := h
    refine ⟨rfl, Attempt.isRetryable_of_failed hj, ?_⟩
    cases w with
    | false => exact .inl (state_setWaitingOn.trans (hactive rfl))
    | true => exact .inr fun j hw => (Attempt.waits_leave hw).2 rfl rfl
  | grantedSingle =>
    obtain ⟨_, _, hgoal, -⟩ := hstage
    exact absurd hgoal (by simp)
  | @keep c q d a rest w hactive =>
    obtain ⟨rfl, -⟩ := h
    have hsame := view_modifyTransaction (s := s) (r := q) (q := q) Transaction.state
      (f := fun t => { t with lockSet := t.lockSet.insert a }) fun _ => rfl
    exact ⟨rfl, hsame.trans hactive⟩
  | giveBack =>
    obtain ⟨rfl, -⟩ := h
    exact ⟨rfl, rfl, .inr fun j hw => (WaitForGraph.waits_remove.mp hw).1 rfl⟩
  | failedSingle =>
    obtain ⟨_, _, hgoal⟩ := hstage
    exact absurd hgoal (by simp)
  | abort => exact ⟨h.1, rfl, _, h.2.1, rfl⟩
  | @abortEnded c q e rest error hended =>
    obtain ⟨rfl, hretry, hwas⟩ := h
    rintro _ ⟨⟩
    cases hstate : (s.transactionAt q).state with
    | active | committing =>
      rw [hstate] at hended
      exact absurd hended (by simp [State.canRollBack])
    | committed => exact absurd hstate hr
    | aborting => exact .aborting hretry hstate (hl.rollingBack rfl hstate)
    | aborted => exact .aborted hretry hstate (hwas.resolve_left (by simp [hstate]))
  | @undone c q access cause =>
    obtain ⟨rfl, -, error, hretry, rfl⟩ := h
    rintro _ ⟨⟩
    exact .aborted hretry (state_retired (huser q _ rfl) .aborted) fun j hw =>
      (waits_retire.mp hw).1 rfl
  | removed =>
    obtain ⟨-, -, error, -, hcause⟩ := h
    exact absurd hcause (by simp)
  | beginPhased | beginAtOnce | prepare | prepared | commit | committed => exact h.elim

end Fares

/-- How a lock call fares is decided by itself, for no other call takes its transaction to a commit. -/
theorem Fares.endures (r : TransactionRef) : Endures (fun _ e => e.usesLock = false) Managed
    fun s p => (s.transactionAt r).state ≠ .committed ∧ s.Fares r p where
  invariant := Managed.invariant
  waiting h := h.waiting
  unprepared h := h.2
  uncommitted h := h.2
  advance {s p _ _} hm h ha := by
    obtain ⟨hs, hl⟩ := hm.ledger
    refine ⟨ha.ne_committed hl (fun c htask => ?_) h.1, h.2.advance hm h.1 ha⟩
    cases p <;> first | exact h.2.elim | exact absurd htask (by simp [Stage.task?])
  suspend {_ p _ _ _} hm h ha _ hq := by
    obtain ⟨hs, hl⟩ := hm.ledger
    refine ⟨ha.ne_committed hl (fun c htask => ?_) h.1, h.2.suspended hq⟩
    cases p <;> first | exact h.2.elim | exact absurd htask (by simp [Stage.task?])
  aside {s p _ _ c q} hm ha hpc hq h := by
    obtain ⟨hs, hl⟩ := hm.ledger
    obtain ⟨k, hk, hqc, hqu⟩ := hm.inOrder.resumesAt hq
    obtain ⟨hkr, hka⟩ := Prod.mk.inj (Option.some.inj (hqu.symm.trans (h.2.user? hqc)))
    refine ⟨ha.ne_committed hl (fun b htask => ?_) h.1, h.2.resting hq⟩
    -- A call that commits the transaction has it to itself.
    cases p with
    | committing b r' stores =>
      cases htask
      have := hm.inOrder.aside r .exclusive rfl c k hk hkr
      rw [hka] at this
      exact absurd this (by simp [Access.permits])
    | _ => exact absurd htask (by simp [Stage.task?])
  wait _ hm hst _ hq h := ⟨(hst.begins hm.inOrder r).ne_committed h.1, h.2.resting hq⟩
  wake _ _ _ h := ⟨h.1, h.2.1, by simp⟩
  reply h := h

/-! ### What a call returns -/

/-- How a request has gone that returns: it was refused at once, without any change, or it has been
carried through, for a transaction that was active. -/
theorem ReturnsAt.refused_or_left (h : s.ReturnsAt e later outcome) (hm : Managed s idle)
    (he : e.asker? = some r) (ho : Obeys (fun _ e => e.usesLock = false) s (e :: later)) :
    (∃ error, (s.transactionAt r).refusal? = some error ∧ outcome = .failed error ∧ later = [] ∧
      (s.step e).1 = s) ∨
    (s.transactionAt r).state = .active ∧ ((s.step e).1.run later).Leaves r outcome := by
  obtain hstep | ⟨error, hrefusal, hstep⟩ | ⟨hactive, hst, ha⟩ := hm.inOrder.tidy.asked he
  · have hnone := h.1
    rw [answerTo?, hstep] at hnone
    exact absurd hnone (by simp [Response.outcome?, Response.call?])
  · obtain ⟨hlater, houtcome⟩ := h.at_once (congrArg Prod.snd hstep)
    exact .inl ⟨error, hrefusal, houtcome.symm, hlater, by rw [hstep]⟩
  · have hend := (Fares.endures r).returned hm ho.1 hst ⟨by simp [hactive], rfl, hactive⟩ ha ho.2 h
    exact .inr ⟨hactive, hend.2 outcome rfl⟩

/-- A lock call has succeeded, and its transaction has been active all the time. -/
def Succeeds (s : System) (r : TransactionRef) (e : Event) (later : List Event)
    (outcome : Outcome) : Prop :=
  outcome = .ok .unit ∧ (s.transactionAt r).state = .active ∧
    ∀ n, (((s.step e).1.run (later.take n)).transactionAt r).state = .active

/-- A lock call was refused at once because its transaction was not active, and nothing has changed. -/
def Refuses (s : System) (r : TransactionRef) (e : Event) (later : List Event)
    (outcome : Outcome) : Prop :=
  let t := s.transactionAt r
  t.state ≠ .active ∧ later = [] ∧ (s.step e).1 = s ∧ outcome = .failed
    (if (t.state = .aborting ∨ t.state = .aborted) ∧ t.isInterrupted = true then .interrupted
      else .unexpectedState t.state)

/-- An aborted transaction has left nothing behind.  Its store calls are given. -/
structure Cleared (s : System) (r : TransactionRef) (calls : History) : Prop where
  aborted : (s.transactionAt r).state = .aborted
  undone : ∀ store ∈ (s.transactionAt r).stores,
    ∃ k a, calls.ofStore store.key .rollback = [k] ∧ k.reply? = some a
  unlocked : ∀ name, r.id ∉ (s.lockAt name).owners ∧ r.id ∉ (s.lockAt name).upgraders
  unhindered : s.graph.waitsFor r.id = []
  unlisted : s.registeredState? r = none

/-- A lock call has failed, and its transaction was aborted, unless another call is about to roll it
back. -/
def TakesDown (s : System) (r : TransactionRef) (e : Event) (later : List Event)
    (outcome : Outcome) (calls : History) : Prop :=
  let s' := (s.step e).1.run later
  (s.transactionAt r).state = .active ∧
    (∃ error ∈ [Error.deadlock, .interrupted, .timeout], outcome = .failed error) ∧
    (s'.transactionAt r).state ≠ .active ∧
    ((s'.transactionAt r).state = .aborting ∧ s'.RollingBack r ∨ s'.Cleared r calls)

theorem refusal?_eq {t : Transaction} {error : Error} (h : t.refusal? = some error) :
    t.state ≠ .active ∧ error =
      if (t.state = .aborting ∨ t.state = .aborted) ∧ t.isInterrupted = true then .interrupted
      else .unexpectedState t.state := by
  obtain ⟨state, _, _, isInterrupted, _, _, _⟩ := t
  cases state <;> cases isInterrupted <;> simp_all [Transaction.refusal?, eq_comm]

/-- A transaction that is active after a run has been active at every moment of it. -/
theorem Ledger.active_before (h : Ledger s idle hs) {before : List Event}
    (ha : ((s.run (before ++ later)).transactionAt r).state = .active) :
    ((s.run before).transactionAt r).state = .active := by
  rw [run_append] at ha
  have harrows := ((h.run before).ledger).arrows_run later r
  rw [ha] at harrows
  rcases Relation.ReflTransGen.cases_tail harrows with heq | ⟨state, -, harrow⟩
  · exact heq.symm
  · nomatch harrow

/-- An aborted transaction of one manager has left nothing behind, as far as its own edges go. -/
theorem Managed.cleared (g : Granularity) (config lockConfig : Config) (events : List Event)
    (hm : Managed ((System.new g [config] lockConfig).run events) idle)
    (hs : (((System.new g [config] lockConfig).run events).transactionAt r).state = .aborted)
    (hg : ((System.new g [config] lockConfig).run events).Unhindered r.id) :
    ((System.new g [config] lockConfig).run events).Cleared r
      (((System.new g [config] lockConfig).history events).of r) := by
  have hf : (((System.new g [config] lockConfig).run events).transactionAt r).state.isFinal =
    true := by rw [hs]; rfl
  have hentry := ((Ledger.new g [config] lockConfig).run events).ledger.entry r
  refine ⟨hs, fun store hmem => hentry.rolls_back_once hs hmem, fun name => ?_, ?_,
    registeredState?_eq_none (departed_run g [config] lockConfig events r) hf⟩
  · exact not_or.mp (hm.recorded.not_has_of_isFinal rfl (hm.ref_eq_of_isFinal hf ▸ hf) name)
  · exact List.eq_nil_iff_forall_not_mem.mpr fun j hj => hg j (Std.ExtTreeSet.mem_toList.mp hj)

/-- A lock call succeeds, is refused, or takes its transaction down with it.  Take any run of one
manager in which locks are used through it alone, and in it a call of `lock` or `lockAll`, up to the
event with which the call returns.  Then exactly one of these holds: it has returned success, and the
transaction was active from the call to the answer; or the transaction was not active to begin with,
the call was refused on the spot for that reason, and nothing at all has changed; or the transaction
was active, the call returns a deadlock, an interrupt or a timeout, and unless another call is still
rolling the transaction back it is aborted, each of its stores has been asked to roll back and has
replied, it has no lock, waits to upgrade none, waits for nobody and is not listed any more.  And
nobody waits for it once it has ended, if the wait-for graph is not used directly either. -/
theorem succeeds_or_refuses_or_takes_down (g : Granularity) (config lockConfig : Config)
    (before later : List Event) (e : Event) (r : TransactionRef) (outcome : Outcome)
    (he : e.asker? = some r)
    (ho : Obeys (fun _ e => e.usesLock = false) (System.new g [config] lockConfig)
      (before ++ e :: later))
    (hret : ((System.new g [config] lockConfig).run before).ReturnsAt e later outcome) :
    let fresh := System.new g [config] lockConfig
    let events := before ++ e :: later
    let s := fresh.run before
    let calls := (fresh.history events).of r
    (s.Succeeds r e later outcome ∧ ¬ s.Refuses r e later outcome ∧
        ¬ s.TakesDown r e later outcome calls ∨
      ¬ s.Succeeds r e later outcome ∧ s.Refuses r e later outcome ∧
        ¬ s.TakesDown r e later outcome calls ∨
      ¬ s.Succeeds r e later outcome ∧ ¬ s.Refuses r e later outcome ∧
        s.TakesDown r e later outcome calls) ∧
      (Obeys (fun _ e => e.usesLock = false ∧ e.usesGraph = false) fresh events →
        ((fresh.run events).transactionAt r).state.isFinal = true →
          ∀ i, r.id ∉ (fresh.run events).graph.waitsFor i) := by
  intro fresh events s calls
  have hnew : Managed fresh idle := .new g config lockConfig
  have hend : fresh.run events = (s.step e).1.run later := run_append ..
  obtain ⟨hbefore, hafter⟩ := obeys_append.mp ho
  have hm : Managed s idle := Managed.invariant.run hnew hbefore
  have hm' : Managed (fresh.run events) idle := Managed.invariant.run hnew ho
  obtain ⟨hs, hl⟩ := hm.ledger
  constructor
  · obtain ⟨error, hrefusal, rfl, rfl, hsame⟩ | ⟨hactive, hleft⟩ :=
      hret.refused_or_left hm he hafter
    · obtain ⟨hne, rfl⟩ := refusal?_eq hrefusal
      exact .inr (.inl ⟨fun h => hne h.2.1, ⟨hne, rfl, hsame, rfl⟩, fun h => hne h.1⟩)
    rw [← hend] at hleft
    have hnot : ¬ s.Refuses r e later outcome := fun h => h.1 hactive
    have hdown : ∀ error : Error, error.isRetryable = true → outcome = .failed error →
        ((fresh.run events).transactionAt r).state ≠ .active →
        (((fresh.run events).transactionAt r).state = .aborting ∧ (fresh.run events).RollingBack r ∨
          (fresh.run events).Cleared r calls) →
        ¬ s.Succeeds r e later outcome ∧ ¬ s.Refuses r e later outcome ∧
          s.TakesDown r e later outcome calls := by
      intro error hretry herror hne hleft
      refine ⟨fun h => ?_, hnot, hactive, ⟨error, Error.mem_of_isRetryable hretry, herror⟩, ?_, ?_⟩
      · exact absurd (herror.symm.trans h.1) (by simp)
      · rw [← hend]; exact hne
      · rw [← hend]; exact hleft
    cases hleft with
    | active hs' =>
      refine .inl ⟨⟨rfl, hactive, fun n => ?_⟩, hnot, fun ⟨_, ⟨_, _, herror⟩, _⟩ => ?_⟩
      · have hall : (((s.step e).1.run (later.take n ++ later.drop n)).transactionAt r).state =
            .active := by rw [List.take_append_drop, ← hend]; exact hs'
        exact ((hl.step e).ledger).active_before hall
      · exact absurd herror (by simp)
    | aborted hretry hs' hg =>
      exact .inr (.inr (hdown _ hretry rfl (by rw [hs']; simp) (.inr (hm'.cleared _ _ _ _ hs' hg))))
    | aborting hretry hs' hr =>
      exact .inr (.inr (hdown _ hretry rfl (by rw [hs']; simp) (.inl ⟨hs', hr⟩)))
  · intro ho' hf i hi
    have hunawaited := (Unawaited.invariant.run ⟨hnew, .new g [config] lockConfig⟩ ho').2
    have hopen := hunawaited i r.id (Std.ExtTreeSet.mem_toList.mp hi)
    rw [← hm'.ref_eq_of_isFinal hf, hf] at hopen
    exact absurd hopen (by simp)

/-- A transaction with a store locks two entities at once.  It is granted the first one, falls asleep on
the second one, is interrupted there, and has its store rolled back before it is told so. -/
theorem taken_down_asleep :
    let before : List Event := [.begin 0, .begin 0, .register ⟨0, 1⟩ ⟨0, "log"⟩,
      .lock ⟨0, 2⟩ ⟨["b"]⟩ .exclusive]
    let e : Event := .lockAll ⟨0, 1⟩ [⟨⟨["b"]⟩, .shared⟩, ⟨⟨["a"]⟩, .exclusive⟩]
    let later : List Event := [.interrupt ⟨0, 1⟩, .wake 0, .reply 0 .done]
    let fresh := System.new .hierarchical [{}] {}
    let s := fresh.run before
    let calls := (fresh.history (before ++ e :: later)).of ⟨0, 1⟩
    Obeys (fun _ e => e.usesLock = false) fresh (before ++ e :: later) ∧
      s.ReturnsAt e later (.failed .interrupted) ∧
      ((s.step e).1.lockAt (.entity ⟨["a"]⟩)).modeOf 1 = some .exclusive ∧
      s.TakesDown ⟨0, 1⟩ e later (.failed .interrupted) calls ∧
      ((s.step e).1.run later).Cleared ⟨0, 1⟩ calls := by
  intro before e later fresh s calls
  have ho : Obeys (fun _ e => e.usesLock = false) fresh (before ++ e :: later) := by decide +kernel
  have hret : s.ReturnsAt e later (.failed .interrupted) := by decide +kernel
  have hheld : ((s.step e).1.lockAt (.entity ⟨["a"]⟩)).modeOf 1 = some .exclusive := by
    decide +kernel
  have haborted : (((s.step e).1.run later).transactionAt ⟨0, 1⟩).state = .aborted := by
    decide +kernel
  have hactive : (s.transactionAt ⟨0, 1⟩).state = .active := by decide +kernel
  have hdown : s.TakesDown ⟨0, 1⟩ e later (.failed .interrupted) calls := by
    obtain ⟨⟨h, -⟩ | ⟨-, h, -⟩ | ⟨-, -, h⟩, -⟩ :=
      succeeds_or_refuses_or_takes_down .hierarchical {} {} before later e ⟨0, 1⟩ _ rfl ho hret
    · exact absurd h.1 (by simp)
    · exact absurd hactive h.1
    · exact h
  refine ⟨ho, hret, hheld, hdown, hdown.2.2.2.resolve_left fun h => ?_⟩
  exact absurd (haborted.symm.trans h.1) (by simp)

end System

end Locking
