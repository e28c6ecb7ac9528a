import Locking.Proofs.System.Release
import Locking.Proofs.System.Stage

/-! Every event runs its course through the stages: what an event does is a start, followed by
advances until the call has returned, fallen asleep or called a store. -/

namespace Locking.System

variable {s : System} {c : CallId} {r : TransactionRef} {name : LockName} {kind : Request}
  {d : Deadline} {goal : Goal} {w : Bool}

/-! ### Dismissed calls -/

theorem suspend_self {k : Call} (hk : s.calls[c]? = some k) (hc : c < s.nextCall) :
    s.suspend c k = s := by
  have hcalls : s.calls.insert c k = s.calls := by
    refine Std.ExtTreeMap.ext_getElem? fun d => ?_
    simp only [Std.ExtTreeMap.getElem?_insert, Nat.compare_eq_eq]
    split
    · next hd => rw [← hd, hk]
    · rfl
  have hnext : max s.nextCall (c + 1) = s.nextCall := Nat.max_eq_left hc
  rw [suspend, hcalls, hnext]

theorem dismiss_suspend {k : Call} (hc : c < s.nextCall) :
    (s.suspend c k).dismiss c = s.dismiss c := by
  have hnext : max s.nextCall (c + 1) = s.nextCall := Nat.max_eq_left hc
  simp only [suspend, dismiss, hnext, System.mk.injEq, true_and, and_true]
  refine Std.ExtTreeMap.ext_getElem? fun d => ?_
  simp only [Std.ExtTreeMap.getElem?_insert, Std.ExtTreeMap.getElem?_erase, Nat.compare_eq_eq]
  split <;> rfl

theorem retire_dismiss (s : System) (c : CallId) (r : TransactionRef) :
    (s.dismiss c).retire r = (s.retire r).dismiss c := by
  simp only [retire_eq, forget_eq, releaseAll_eq]
  rfl

theorem statistics_retire (s : System) (r : TransactionRef) :
    (s.retire r).statistics = s.statistics := by
  simp only [retire_eq, forget_eq, releaseAll_eq]
  rfl

theorem statistics_alert (s : System) (r : TransactionRef) :
    (s.alert r).statistics = s.statistics := by
  obtain h | ⟨name, h⟩ := alert_eq s r <;> rw [h]
  rfl

theorem alert_dismiss (s : System) (c : CallId) (r : TransactionRef) :
    (s.dismiss c).alert r = (s.alert r).dismiss c := by
  simp only [alert, show (s.dismiss c).transactionAt r = s.transactionAt r from rfl]
  split <;> rfl

/-! ### Endings -/

theorem conclusion_course {cause : Cause} (hc : cause ≠ .removal) :
    s.conclusion c r cause = (s.dismiss c, .returned cause.outcome) := by
  cases cause with
  | removal => exact absurd rfl hc
  | _ => rfl

theorem undoing_course (s : System) (c : CallId) (r : TransactionRef) (access : Access)
    (cause : Cause) (stores : List Store) :
    Advances (s.dismiss c) (.undoing c r access cause stores)
      (s.rollBackStores c r access cause stores) := by
  cases stores with
  | cons store rest =>
    have h : Advance (s.dismiss c) (.undoing c r access cause (store :: rest)) _ _ := .undo
    rw [suspend_dismiss] at h
    exact .step h .concluded
  | nil =>
    have hretire : ((s.dismiss c).setState r .aborted).retire r =
        ((s.setState r .aborted).retire r).dismiss c := retire_dismiss (s.setState r .aborted) c r
    have hstat : ((s.setState r .aborted).retire r).statistics = s.statistics :=
      statistics_retire _ _
    simp only [rollBackStores, hstat]
    by_cases hc : cause = .removal
    · subst hc
      have h : Advance (s.dismiss c) (.undoing c r access .removal []) _ _ := .removed
      rw [hretire] at h
      have hend : ∀ (t : System) (statistics : Statistics),
          ((t.dismiss c).setStatistics statistics).alert r =
            ((t.setStatistics statistics).alert r).dismiss c :=
        fun t statistics => alert_dismiss (t.setStatistics statistics) c r
      rw [hend] at h
      exact .step h .concluded
    · have h : Advance (s.dismiss c) (.undoing c r access cause []) _ _ := .undone hc
      rw [hretire] at h
      rw [conclusion_course hc]
      exact .step h .concluded

theorem committing_course (s : System) (c : CallId) (r : TransactionRef) (stores : List Store) :
    Advances (s.dismiss c) (.committing c r stores) (s.commitStores c r stores) := by
  cases stores with
  | cons store rest =>
    have h : Advance (s.dismiss c) (.committing c r (store :: rest)) _ _ := .commit
    rw [suspend_dismiss] at h
    exact .step h .concluded
  | nil =>
    have hretire : ((s.dismiss c).setState r .committed).retire r =
        ((s.setState r .committed).retire r).dismiss c :=
      retire_dismiss (s.setState r .committed) c r
    have hstat : ((s.setState r .committed).retire r).statistics = s.statistics :=
      statistics_retire _ _
    have h : Advance (s.dismiss c) (.committing c r []) _ _ := .committed
    rw [hretire] at h
    simp only [commitStores, hstat]
    exact .step h .concluded

theorem preparing_course (s : System) (c : CallId) (r : TransactionRef) (stores : List Store) :
    Advances (s.dismiss c) (.preparing c r stores) (s.prepareStores c r stores) := by
  cases stores with
  | cons store rest =>
    have h : Advance (s.dismiss c) (.preparing c r (store :: rest)) _ _ := .prepare
    rw [suspend_dismiss] at h
    exact .step h .concluded
  | nil => exact .step .prepared (committing_course s c r _)

theorem failed_course (s : System) (c : CallId) (r : TransactionRef) (e : EntityId)
    (rest : List Need) (error : Error) :
    Advances (s.dismiss c) (.failed c r (.plan e rest) error) (s.abort c r error) := by
  unfold abort rollBack
  by_cases hs : (s.transactionAt r).state.canRollBack = true
  · rw [if_pos (show (({ s with statistics := s.statistics.countFailure error } :
      System).transactionAt r).state.canRollBack = true from hs)]
    exact .step (.abort hs) (undoing_course
      ((s.setStatistics (s.statistics.countFailure error)).setState r .aborting) c r _ _ _)
  · rw [if_neg (show ¬ (({ s with statistics := s.statistics.countFailure error } :
      System).transactionAt r).state.canRollBack = true from hs)]
    exact .step (.abortEnded (Bool.eq_false_iff.mpr hs)) .concluded

/-! ### Looks at a lock -/

theorem modifyLock_id (s : System) (name : LockName) {f : Lock → Lock} (hf : ∀ l, f l = l) :
    s.modifyLock name f = s := by
  have hlocks : s.locks.modify name f = s.locks := by
    refine Std.ExtTreeMap.ext_getElem? fun k => ?_
    simp only [Std.ExtTreeMap.getElem?_modify, Std.LawfulEqOrd.compare_eq_iff_eq]
    split
    · next h => rw [h]; cases s.locks[k]? <;> simp [hf]
    · rfl
  rw [modifyLock, hlocks]

theorem look_eq (s : System) (c : CallId) (r : TransactionRef) (name : LockName) (kind : Request)
    (d : Deadline) (w : Bool) : s.look c r name kind d w =
      match (s.attempt c r kind d w).run (s.lockAt name) s.graph with
      | (l, graph, .sleeps) => ((s.modifyLock name fun _ => l).setGraph graph, .sleeps)
      | (l, graph, verdict) =>
        (((s.modifyLock name fun _ => l).setGraph graph).setWaitingOn r none, verdict) := rfl

/-- A look leads to sleep, to a grant or to a failure. -/
theorem looking_course (s : System) (c : CallId) (r : TransactionRef) (kind : Request)
    (d : Deadline) (goal : Goal) (w : Bool) (hl : name ∈ s.locks) :
    let result := (s.modifyLock name (·.approach r.id kind w)).look c r name kind d w
    result.1.calls = s.calls ∧ result.1.nextCall = s.nextCall ∧
      match result.2 with
      | .sleeps =>
        Advance (s.dismiss c) (.looking c r name kind d goal w)
          (result.1.suspend c ⟨r, .shared, .waiting name d goal⟩) (.concluded (.asleep c))
      | .granted =>
        Advance (s.dismiss c) (.looking c r name kind d goal w) (result.1.dismiss c)
          (.granted c r d goal w)
      | .failed error =>
        Advance (s.dismiss c) (.looking c r name kind d goal w) (result.1.dismiss c)
          (.failed c r goal error) := by
  -- What a look makes of the lock as it was approached is one change of the lock.
  have hset : ∀ f : Lock → Lock, ((s.modifyLock name (·.approach r.id kind w)).modifyLock name
      fun _ => f ((s.lockAt name).approach r.id kind w)) =
        s.modifyLock name fun l => f (l.approach r.id kind w) := by
    intro f
    have hat := lockAt_modifyLock s name name (·.approach r.id kind w) hl
    rw [if_pos rfl] at hat
    rw [← hat, modifyLock_lockAt, modifyLock_modifyLock]
  have hat : (s.modifyLock name (·.approach r.id kind w)).lockAt name =
      (s.lockAt name).approach r.id kind w := by
    rw [lockAt_modifyLock s name name _ hl, if_pos rfl]
  have hjudge : ∀ {g verdict}, (s.attempt c r kind d w).judge
      ((s.lockAt name).approach r.id kind w) s.graph = (g, verdict) →
      ((s.dismiss c).attempt c r kind d w).judge
        (((s.dismiss c).lockAt name).approach r.id kind w) (s.dismiss c).graph = (g, verdict) := id
  have hattempt : (s.modifyLock name (·.approach r.id kind w)).attempt c r kind d w =
      s.attempt c r kind d w := rfl
  simp only [look_eq, hattempt, hat, Attempt.run,
    show (s.modifyLock name (·.approach r.id kind w)).graph = s.graph from rfl]
  rcases hj : (s.attempt c r kind d w).judge ((s.lockAt name).approach r.id kind w) s.graph with
    ⟨g, verdict⟩
  cases verdict with
  | sleeps =>
    have h : Advance (s.dismiss c) (.looking c r name kind d goal w) _ _ := .sleep (hjudge hj)
    simp only [attempt_call, attempt_transaction, attempt_request, hset (·.park c r.id kind)]
    refine ⟨rfl, rfl, ?_⟩
    rwa [← suspend_dismiss]
  | granted =>
    have h : Advance (s.dismiss c) (.looking c r name kind d goal w) _ _ := .grant (hjudge hj)
    simp only [attempt_transaction, attempt_request, hset (·.grant r.id kind)]
    exact ⟨rfl, rfl, h⟩
  | failed error =>
    have h : Advance (s.dismiss c) (.looking c r name kind d goal w) _ _ := .fail (hjudge hj)
    simp only [attempt_transaction, hset (·.abandon r.id)]
    exact ⟨rfl, rfl, h⟩

/-! ### Requests and plans -/

theorem request_eq (s : System) (c : CallId) (r : TransactionRef) (name : LockName)
    (kind : Request) (d : Deadline) : s.request c r name kind d =
      ((s.setWaitingOn r (some name)).modifyLock name (·.approach r.id kind false)).look c r name
        kind d false := by
  unfold request
  by_cases hk : kind = .upgrade
  · simp [hk, Lock.approach, Lock.enter]
  · rw [modifyLock_id _ _ (by simp [Lock.approach, Lock.enter, hk])]
    simp [hk]

theorem granted_course (s : System) (e : EntityId) (rest : List Need)
    (htake : ∀ s : System, Advances (s.dismiss c) (.taking c r d rest) (s.take c r d rest)) :
    Advances (s.dismiss c) (.granted c r d (.plan e rest) w)
      (match s.keep r e w with
      | (s, none) => s.take c r d rest
      | (s, some error) => s.abort c r error) := by
  unfold keep
  by_cases hs : (s.transactionAt r).state = .active
  · rw [if_pos hs]
    exact .step (.keep hs) (htake
      ((s.modifyTransaction r fun t => { t with lockSet := t.lockSet.insert e }).setStatistics
        (s.statistics.countGrant w)))
  · rw [if_neg hs]
    exact .step (.giveBack hs) (failed_course (s.release r.id (.entity e)) c r e rest _)

theorem taking_course (c : CallId) (r : TransactionRef) (d : Deadline) (needs : List Need)
    (s : System) : Advances (s.dismiss c) (.taking c r d needs) (s.take c r d needs) := by
  induction needs generalizing s with
  | nil => exact .step .done .concluded
  | cons n rest ih =>
    have hl : .entity n.entity ∈ (s.addLock (.entity n.entity)).locks :=
      mem_locks_addLock.mpr (.inl rfl)
    have hmode : ((s.addLock (.entity n.entity)).lockAt (.entity n.entity)).modeOf r.id =
        (s.lockAt (.entity n.entity)).modeOf r.id := by rw [lockAt_addLock]
    unfold take ask
    by_cases hi : (s.transactionAt r).isInterrupted = true
    · have hi' : ((s.addLock (.entity n.entity)).transactionAt r).isInterrupted = true := hi
      rw [if_pos hi']
      exact .step (.refuse hi) (failed_course (s.addLock (.entity n.entity)) c r _ _ _)
    · have hi' : ¬ ((s.addLock (.entity n.entity)).transactionAt r).isInterrupted = true := hi
      rw [if_neg hi']
      have hi : (s.transactionAt r).isInterrupted = false := Bool.eq_false_iff.mpr hi
      rw [hmode]
      cases hk : Request.of? ((s.lockAt (.entity n.entity)).modeOf r.id) n.mode with
      | none =>
        exact .step (.covered hi hk)
          (granted_course (s.addLock (.entity n.entity)) n.entity rest ih)
      | some kind =>
        simp only [request_eq]
        have h := looking_course ((s.addLock (.entity n.entity)).setWaitingOn r
          (some (.entity n.entity))) c r kind d (.plan n.entity rest) false hl
        generalize (((s.addLock (.entity n.entity)).setWaitingOn r
          (some (.entity n.entity))).modifyLock (.entity n.entity)
            (·.approach r.id kind false)).look c r (.entity n.entity) kind d false = result at h ⊢
        obtain ⟨s', verdict⟩ := result
        refine .step (.ask hi hk) ?_
        cases verdict with
        | sleeps => exact .step h.2.2 .concluded
        | granted => exact .step h.2.2 (granted_course s' n.entity rest ih)
        | failed error => exact .step h.2.2 (failed_course s' c r _ _ error)

theorem goOn_course (s : System) :
    Advances (s.dismiss c) (.granted c r d goal true) (s.goOn c r d goal) := by
  cases goal with
  | single => exact .step .grantedSingle .concluded
  | plan e rest => exact granted_course s e rest (taking_course c r d rest)

theorem single_course (s : System) (name : LockName) (kind : Request) (hl : name ∈ s.locks) :
    Advances (s.dismiss c) (.looking c r name kind d .single false)
      (let (s, verdict) :=
        (s.modifyLock name (·.approach r.id kind false)).look c r name kind d false
      s.single c r name d verdict) := by
  have h := looking_course s c r kind d .single false hl
  generalize (s.modifyLock name (·.approach r.id kind false)).look c r name kind d false =
    result at h ⊢
  obtain ⟨s', verdict⟩ := result
  cases verdict with
  | sleeps => exact .step h.2.2 .concluded
  | granted => exact .step h.2.2 (.step .grantedSingle .concluded)
  | failed error => exact .step h.2.2 (.step .failedSingle .concluded)

/-! ### Events -/

variable {t : System}

/-- The calls in progress have been numbered, and those asleep share their transaction. -/
structure Tidy (s : System) : Prop where
  fresh : ∀ (c : CallId) (k : Call), s.calls[c]? = some k → c < s.nextCall
  shared : ∀ (c : CallId) (k : Call) (name : LockName) (d : Deadline) (goal : Goal),
    s.calls[c]? = some k → k.point = .waiting name d goal → k.access = .shared

/-- What an event does: it starts, and then the call that goes on does all it can. -/
def Follows (s : System) (e : Event) (result : System × Response) : Prop :=
  ∃ s' p, Start s e s' p ∧ Advances s' p result

theorem Tidy.dismiss_nextCall (h : s.Tidy) : s.dismiss s.nextCall = s := by
  apply dismiss_of_none
  cases hk : s.calls[s.nextCall]? with
  | none => rfl
  | some k => exact absurd (h.fresh _ _ hk) (Nat.lt_irrefl _)

theorem Tidy.suspend (h : s.Tidy) (hc : c < s.nextCall) :
    (s.suspend c ⟨r, .shared, .waiting name d goal⟩).Tidy where
  fresh b k hk := by
    rw [calls_suspend] at hk
    have hnext : (s.suspend c ⟨r, .shared, .waiting name d goal⟩).nextCall = s.nextCall :=
      Nat.max_eq_left hc
    rw [hnext]
    split at hk
    · next hb => exact hb ▸ hc
    · exact h.fresh b k hk
  shared b k other d' goal' hk hp := by
    rw [calls_suspend] at hk
    split at hk
    · rw [← Option.some.inj hk]
    · exact h.shared b k other d' goal' hk hp

theorem Follows.quiet {e : Event} {response : Response}
    (hr : ∀ c call, response ≠ .storeCall c call)
    (hc : ∀ c answer, e = .reply c answer → ∀ k, s.calls[c]? = some k → k.point.isAsleep) :
    s.Follows e (s, response) :=
  ⟨s, _, .quiet hr hc, .concluded⟩

theorem follows_withAccess {e : Event} {access : Access} {act : System → System × Response}
    (hc : ∀ c answer, e ≠ .reply c answer)
    (hact : s.admits r access = true → s.Follows e (act s)) :
    s.Follows e (s.withAccess r access act) := by
  unfold withAccess
  split
  · next ha => exact hact ha
  · exact .quiet (by simp) (fun c answer he => absurd he (hc c answer))

theorem follows_withLock {e : Event} {act : System → System × Response}
    (hc : ∀ c answer, e ≠ .reply c answer) (hact : name ∈ s.locks → s.Follows e (act s)) :
    s.Follows e (s.withLock name act) := by
  unfold withLock
  split
  · next hl => exact hact (Std.ExtTreeMap.contains_iff_mem.mp hl)
  · exact .quiet (by simp) (fun c answer he => absurd he (hc c answer))

/-- A request for locks gets to work, unless its transaction is not active. -/
theorem follows_refusal {e : Event} {needs : List Need} (h : s.Tidy)
    (hc : ∀ c answer, e ≠ .reply c answer)
    (hstart : (s.transactionAt r).state = .active →
      Start s e s (.taking s.nextCall r s.lockDeadline needs)) :
    s.Follows e (match (s.transactionAt r).refusal? with
      | some error => (s, .returned (.failed error))
      | none => s.take s.nextCall r s.lockDeadline needs) := by
  have hquiet : ∀ error, s.Follows e (s, .returned (.failed error)) := fun error =>
    .quiet (by simp) (fun c answer he => absurd he (hc c answer))
  cases hs : (s.transactionAt r).state with
  | active =>
    have h' := taking_course s.nextCall r s.lockDeadline needs s
    rw [h.dismiss_nextCall] at h'
    simp only [Transaction.refusal?, hs]
    exact ⟨_, _, hstart hs, h'⟩
  | _ =>
    simp only [Transaction.refusal?, hs]
    exact hquiet _

theorem follows_acquire {mode : LockMode} (h : s.Tidy) (ha : s.admits r .shared = true)
    (hl : name ∈ s.locks) :
    s.Follows (.acquire r name mode d) (s.acquire s.nextCall r name mode d) := by
  have hquiet : ∀ outcome, s.Follows (.acquire r name mode d) (s.conclude s.nextCall outcome) := by
    intro outcome
    show s.Follows _ (s.dismiss s.nextCall, _)
    rw [h.dismiss_nextCall]
    exact .quiet (by simp) (by simp)
  unfold acquire ask
  by_cases hi : (s.transactionAt r).isInterrupted = true
  · rw [if_pos hi]
    exact hquiet _
  · rw [if_neg hi]
    cases hk : Request.of? ((s.lockAt name).modeOf r.id) mode with
    | none => exact hquiet _
    | some kind =>
      have h' := single_course (d := d) (c := s.nextCall) (r := r) (s.setWaitingOn r (some name))
        name kind hl
      rw [show (s.setWaitingOn r (some name)).dismiss s.nextCall = s.setWaitingOn r (some name) from
        congrArg (setWaitingOn · r (some name)) h.dismiss_nextCall] at h'
      simp only [request_eq]
      exact ⟨_, _, .acquire ha hl (Bool.eq_false_iff.mpr hi) hk, h'⟩

theorem follows_upgrade (h : s.Tidy) (ha : s.admits r .shared = true) (hl : name ∈ s.locks) :
    s.Follows (.upgrade r name d) (s.upgrade s.nextCall r name d) := by
  have hquiet : ∀ outcome, s.Follows (.upgrade r name d) (s.conclude s.nextCall outcome) := by
    intro outcome
    show s.Follows _ (s.dismiss s.nextCall, _)
    rw [h.dismiss_nextCall]
    exact .quiet (by simp) (by simp)
  unfold upgrade
  by_cases hi : (s.transactionAt r).isInterrupted = true
  · rw [if_pos hi]
    exact hquiet _
  · rw [if_neg hi]
    by_cases hm : (s.lockAt name).modeOf r.id = some .exclusive
    · rw [if_pos hm]
      exact hquiet _
    · have h' := single_course (d := d) (c := s.nextCall) (r := r) (s.setWaitingOn r (some name))
        name .upgrade hl
      rw [show (s.setWaitingOn r (some name)).dismiss s.nextCall = s.setWaitingOn r (some name) from
        congrArg (setWaitingOn · r (some name)) h.dismiss_nextCall] at h'
      rw [if_neg hm]
      simp only [request_eq]
      exact ⟨_, _, .upgrade ha hl (Bool.eq_false_iff.mpr hi) hm, h'⟩

/-- A rollback starts, unless the transaction has ended or is being rolled back already. -/
theorem follows_rollBack {e : Event} {access : Access} {cause : Cause} (hcause : cause ≠ .removal)
    (hstart : (s.transactionAt r).state.canRollBack = true → Start t e
      ((s.dismiss c).setState r .aborting)
      (.undoing c r access cause (s.transactionAt r).stores))
    (hended : (s.transactionAt r).state.canRollBack = false →
      Start t e (s.dismiss c) (.concluded (.returned cause.outcome))) :
    t.Follows e (s.rollBack c r access cause) := by
  unfold rollBack
  by_cases hs : (s.transactionAt r).state.canRollBack = true
  · rw [if_pos hs]
    exact ⟨_, _, hstart hs, undoing_course (s.setState r .aborting) c r access cause _⟩
  · rw [if_neg hs, conclusion_course hcause]
    exact ⟨_, _, hended (Bool.eq_false_iff.mpr hs), .concluded⟩

theorem follows_commit (h : s.Tidy) (ha : s.admits r .exclusive = true) :
    s.Follows (.commit r) (s.commit s.nextCall r) := by
  have hd : ∀ state, (s.setState r state).dismiss s.nextCall = s.setState r state :=
    fun state => congrArg (setState · r state) h.dismiss_nextCall
  unfold commit
  by_cases hi : (s.transactionAt r).isInterrupted = true ∧ (s.transactionAt r).state ≠ .committed
  · rw [if_pos hi]
    refine follows_rollBack (by simp) (fun hs => ?_) fun _ => ?_
    · rw [h.dismiss_nextCall]
      exact .commitInterrupted ha hi.1 hs
    · rw [h.dismiss_nextCall]
      exact .quiet (by simp) (by simp)
  · rw [if_neg hi]
    by_cases hs : (s.transactionAt r).state = .active
    swap
    · rw [if_pos hs]
      exact .quiet (by simp) (by simp)
    have hi : (s.transactionAt r).isInterrupted = false := by
      rw [hs] at hi
      simpa using hi
    rw [if_neg (not_not.mpr hs)]
    by_cases ht : s.twoPhaseCommit r.manager = true
    · have hp := preparing_course (s.setState r .committing) s.nextCall r (s.transactionAt r).stores
      rw [hd] at hp
      rw [if_pos ht]
      exact ⟨_, _, .commit ha hs hi, .step (.beginPhased ht) hp⟩
    · have hp :=
        committing_course (s.setState r .committing) s.nextCall r (s.transactionAt r).stores
      rw [hd] at hp
      rw [if_neg ht]
      exact ⟨_, _, .commit ha hs hi, .step (.beginAtOnce (Bool.eq_false_iff.mpr ht)) hp⟩

theorem follows_remove (h : s.Tidy) : s.Follows (.remove r) (s.remove s.nextCall r) := by
  unfold remove
  split
  · exact .quiet (by simp) (by simp)
  · next hs =>
    have hp := undoing_course
      (s.modifyTransaction r fun t => { t with state := .aborting, isInterrupted := true })
      s.nextCall r .unowned .removal (s.transactionAt r).stores
    rw [show (s.modifyTransaction r fun t =>
        { t with state := .aborting, isInterrupted := true }).dismiss s.nextCall =
          s.modifyTransaction r fun t => { t with state := .aborting, isInterrupted := true } from
      congrArg (modifyTransaction · r _) h.dismiss_nextCall] at hp
    exact ⟨_, _, .remove hs, hp⟩
  · exact .quiet (by simp) (by simp)

theorem follows_reply (s : System) (c : CallId) (answer : Reply) :
    s.Follows (.reply c answer) (s.reply c answer) := by
  unfold reply
  split
  · next r access store rest hk =>
    cases answer with
    | done => exact ⟨_, _, .prepared hk rfl, preparing_course s c r rest⟩
    | _ =>
      exact follows_rollBack (by simp) (fun hs => .notPrepared hk rfl hs)
        fun hs => .notPreparedEnded hk rfl hs
  · next r access store rest hk =>
    cases answer with
    | failed message =>
      exact follows_rollBack (by simp) (fun hs => .notCommitted hk rfl hs)
        fun hs => .notCommittedEnded hk rfl hs
    | _ => exact ⟨_, _, .committed hk rfl, committing_course s c r rest⟩
  · next r access store rest cause hk =>
    cases answer with
    | failed message =>
      exact ⟨_, _, .rolledBack hk, undoing_course
        (s.setStatistics s.statistics.countStoreRollbackFailure) c r access cause rest⟩
    | _ =>
      exact ⟨_, _, .rolledBack hk, undoing_course (s.setStatistics s.statistics) c r access cause
        rest⟩
  · next hp hc hr =>
    refine .quiet (by simp) fun b a he k hk => ?_
    obtain ⟨rfl, -⟩ := Event.reply.inj he
    obtain ⟨r, access, point⟩ := k
    cases point with
    | waiting => rfl
    | preparing store rest => exact absurd hk (hp r access store rest)
    | committing store rest => exact absurd hk (hc r access store rest)
    | rollingBack store rest cause => exact absurd hk (hr r access store rest cause)

/-- A call that wakes up looks at its lock and goes on from there. -/
theorem waking_course (h : s.Tidy) {w : Waiter}
    (hk : s.calls[c]? = some ⟨r, .shared, .waiting name d goal⟩)
    (hw : (s.lockAt name).waiter? c = some w) :
    Advances ((s.dismiss c).modifyLock name (·.rouse w))
      (.looking c r name w.request d goal true) (s.wake c) := by
  have hl : name ∈ s.locks := mem_locks_of_waiter (List.mem_of_find?_eq_some hw)
  have h' := looking_course (s.modifyLock name (·.rouse w)) c r w.request d goal true
    (mem_locks_modifyLock.mpr hl)
  rw [modifyLock_id (s.modifyLock name (·.rouse w)) name (by simp [Lock.approach])] at h'
  simp only [wake, hk, hw]
  generalize (s.modifyLock name (·.rouse w)).look c r name w.request d true = result at h' ⊢
  obtain ⟨s', verdict⟩ := result
  obtain ⟨hcalls, hnext, h'⟩ := h'
  cases verdict with
  | sleeps =>
    have hself : s'.suspend c ⟨r, .shared, .waiting name d goal⟩ = s' :=
      suspend_self ((congrArg (·[c]?) hcalls).trans hk) (hnext ▸ h.fresh c _ hk)
    simp only [hself] at h'
    exact .step h' .concluded
  | granted => exact .step h' (goOn_course s')
  | failed error =>
    apply Advances.step h'
    cases goal with
    | single => exact .step .failedSingle .concluded
    | plan e rest => exact failed_course s' c r e rest error

/-- Nothing wakes up but a request that is asleep. -/
theorem wake_cases (h : s.Tidy) (c : CallId) : s.wake c = (s, .refused) ∨
    ∃ r name d goal w, s.calls[c]? = some ⟨r, .shared, .waiting name d goal⟩ ∧
      (s.lockAt name).waiter? c = some w := by
  cases hk : s.calls[c]? with
  | none => exact .inl (by simp only [wake, hk])
  | some k =>
    obtain ⟨r, access, point⟩ := k
    cases point with
    | waiting name d goal =>
      obtain rfl : access = .shared := h.shared c _ name d goal hk rfl
      cases hw : (s.lockAt name).waiter? c with
      | none => exact .inl (by simp only [wake, hk, hw])
      | some w => exact .inr ⟨r, name, d, goal, w, rfl, hw⟩
    | _ => exact .inl (by simp only [wake, hk])

theorem follows_wake (h : s.Tidy) (c : CallId) : s.Follows (.wake c) (s.wake c) := by
  obtain hrefused | ⟨r, name, d, goal, w, hk, hw⟩ := wake_cases h c
  · rw [hrefused]
    exact .quiet (by simp) (by simp)
  · exact ⟨_, _, .wake hk hw, waking_course h hk hw⟩

/-- A call whose deadline passes wakes up as if its deadline had passed all along. -/
theorem expire_eq_wake {access : Access}
    (hk : s.calls[c]? = some ⟨r, access, .waiting name d goal⟩) (hd : d ≠ .never) :
    s.expire c = (s.suspend c ⟨r, access, .waiting name .passed goal⟩).wake c := by
  cases d with
  | never => exact absurd rfl hd
  | _ => simp only [expire, hk]

theorem expire_idle {access : Access}
    (hk : s.calls[c]? = some ⟨r, access, .waiting name d goal⟩) (hd : d ≠ .never)
    (hw : (s.lockAt name).waiter? c = none) :
    s.expire c = (s.suspend c ⟨r, access, .waiting name .passed goal⟩, .refused) := by
  rw [expire_eq_wake hk hd]
  simp only [wake, calls_suspend, if_true]
  rw [show ((s.suspend c ⟨r, access, .waiting name .passed goal⟩).lockAt name).waiter? c =
    none from hw]

theorem expiring_course (h : s.Tidy) {w : Waiter}
    (hk : s.calls[c]? = some ⟨r, .shared, .waiting name d goal⟩) (hd : d ≠ .never)
    (hw : (s.lockAt name).waiter? c = some w) :
    Advances ((s.dismiss c).modifyLock name (·.rouse w))
      (.looking c r name w.request .passed goal true) (s.expire c) := by
  have hc : c < s.nextCall := h.fresh c _ hk
  have hcall : (s.suspend c ⟨r, .shared, .waiting name .passed goal⟩).calls[c]? =
      some ⟨r, .shared, .waiting name .passed goal⟩ := by
    rw [calls_suspend, if_pos rfl]
  have hcourse := waking_course (h.suspend hc) hcall hw
  rw [dismiss_suspend hc] at hcourse
  rw [expire_eq_wake hk hd]
  exact hcourse

/-- No deadline passes but that of a request that is asleep and has one. -/
theorem expire_cases (h : s.Tidy) (c : CallId) : s.expire c = (s, .refused) ∨
    ∃ r name d goal, s.calls[c]? = some ⟨r, .shared, .waiting name d goal⟩ ∧ d ≠ .never := by
  cases hk : s.calls[c]? with
  | none => exact .inl (by simp only [expire, hk])
  | some k =>
    obtain ⟨r, access, point⟩ := k
    cases point with
    | waiting name d goal =>
      obtain rfl : access = .shared := h.shared c _ name d goal hk rfl
      by_cases hd : d = .never
      · subst hd
        exact .inl (by simp only [expire, hk])
      · exact .inr ⟨r, name, d, goal, rfl, hd⟩
    | _ => exact .inl (by simp only [expire, hk])

theorem follows_expire (h : s.Tidy) (c : CallId) : s.Follows (.expire c) (s.expire c) := by
  obtain hrefused | ⟨r, name, d, goal, hk, hd⟩ := expire_cases h c
  · rw [hrefused]
    exact .quiet (by simp) (by simp)
  · cases hw : (s.lockAt name).waiter? c with
    | none =>
      rw [expire_idle hk hd hw]
      exact ⟨_, _, .expireIdle hk hw, .concluded⟩
    | some w => exact ⟨_, _, .expire hk hd hw, expiring_course h hk hd hw⟩

/-- Every event runs its course. -/
theorem follows_step (h : s.Tidy) (e : Event) : s.Follows e (s.step e) := by
  unfold step
  cases e with
  | begin m =>
    simp only [begin]
    split
    · exact .quiet (by simp) (by simp)
    · next n hn => exact ⟨_, _, .begin hn, .concluded⟩
  | lock r e mode =>
    exact follows_withAccess (by simp) fun ha => follows_refusal h (by simp) fun hs => .lock ha hs
  | lockAll r requests =>
    exact follows_withAccess (by simp) fun ha =>
      follows_refusal h (by simp) fun hs => .lockAll ha hs
  | acquire r name mode d =>
    exact follows_withAccess (by simp) fun ha =>
      follows_withLock (by simp) fun hl => follows_acquire h ha hl
  | upgrade r name d =>
    exact follows_withAccess (by simp) fun ha =>
      follows_withLock (by simp) fun hl => follows_upgrade h ha hl
  | release i name => exact follows_withLock (by simp) fun hl => ⟨_, _, .release hl, .concluded⟩
  | register r store =>
    refine follows_withAccess (by simp) fun ha => ?_
    simp only [register]
    split
    · exact .quiet (by simp) (by simp)
    · next hs =>
      split
      · exact .quiet (by simp) (by simp)
      · next hn =>
        refine ⟨_, _, .register ha (not_not.mp hs) fun known hk he => hn ?_, .concluded⟩
        exact List.any_eq_true.mpr ⟨known, hk, beq_iff_eq.mpr he⟩
  | commit r => exact follows_withAccess (by simp) fun ha => follows_commit h ha
  | rollback r =>
    refine follows_withAccess (by simp) fun ha =>
      follows_rollBack (by simp) (fun hs => ?_) fun _ => ?_
    · rw [h.dismiss_nextCall]
      exact .rollback ha hs
    · rw [h.dismiss_nextCall]
      exact .quiet (by simp) (by simp)
  | drop r =>
    refine follows_withAccess (by simp) fun ha => ?_
    have hr : r ∈ s.transactions := (admits_iff.mp ha).1
    have hat : (s.modifyTransaction r fun t => { t with isOwned := false }).transactionAt r =
        { s.transactionAt r with isOwned := false } := by
      rw [transactionAt_modifyTransaction s r r _ hr, if_pos rfl]
    have hd : (s.modifyTransaction r fun t => { t with isOwned := false }).dismiss s.nextCall =
        s.modifyTransaction r fun t => { t with isOwned := false } :=
      congrArg (modifyTransaction · r _) h.dismiss_nextCall
    refine follows_rollBack (by simp) (fun hs => ?_) fun hs => ?_
    · rw [hat] at hs ⊢
      rw [hd]
      exact .drop ha hs
    · rw [hat] at hs
      rw [hd]
      exact .dropEnded ha hs
  | interrupt r =>
    dsimp only
    split
    · next hr => exact ⟨_, _, .interrupt (Std.ExtTreeMap.contains_iff_mem.mp hr), .concluded⟩
    · exact .quiet (by simp) (by simp)
  | managerInterrupt r =>
    dsimp only
    split
    · next hr => exact ⟨_, _, .managerInterrupt hr, .concluded⟩
    · exact .quiet (by simp) (by simp)
  | remove r => exact follows_remove h
  | unlockAll r => exact follows_withAccess (by simp) fun ha => ⟨_, _, .unlockAll ha, .concluded⟩
  | forget r => exact follows_withAccess (by simp) fun ha => ⟨_, _, .forget ha, .concluded⟩
  | wait i blockers =>
    have hwait : ∀ outcome, s.Follows (.wait i blockers)
        (s.setGraph (s.graph.wait i blockers).1, .returned outcome) :=
      fun outcome => ⟨_, _, .wait, .concluded⟩
    rcases hg : s.graph.wait i blockers with ⟨g, answer⟩
    rw [hg] at hwait
    simp only [hg]
    cases answer with
    | ok _ => exact hwait (.ok .unit)
    | error error => exact hwait (.failed error)
  | stopWaiting i => exact ⟨_, _, .stopWaiting, .concluded⟩
  | removeWaits i => exact ⟨_, _, .removeWaits, .concluded⟩
  | wake c => exact follows_wake h c
  | expire c => exact follows_expire h c
  | pace => exact ⟨_, _, .pace, .concluded⟩
  | reply c answer => exact follows_reply s c answer

end Locking.System
