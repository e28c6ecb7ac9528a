import Locking.Proofs.Lock.Sound
import Locking.Proofs.System.Parts

/-! How an event runs its course.  A call that goes on passes through stages, in each of which it
does one thing to the system, until it has returned, fallen asleep or called a store.  What is
proved of every single advance from one stage to the next holds of every event. -/

namespace Locking

/-- Where a call that goes on stands. -/
inductive Stage where
  /-- It has returned, fallen asleep or called a store, or there was none. -/
  | concluded (response : Response)
  /-- It is to take the locks that it still needs. -/
  | taking (c : CallId) (r : TransactionRef) (deadline : Deadline) (needs : List Need)
  /-- Its request is to look at the lock, for the first time or after it has been asleep. -/
  | looking (c : CallId) (r : TransactionRef) (name : LockName) (kind : Request)
    (deadline : Deadline) (goal : Goal) (hasWaited : Bool)
  /-- Its request has been granted, or nothing had to be requested. -/
  | granted (c : CallId) (r : TransactionRef) (deadline : Deadline) (goal : Goal)
    (hasWaited : Bool)
  /-- Its request has failed. -/
  | failed (c : CallId) (r : TransactionRef) (goal : Goal) (error : Error)
  /-- Its transaction is being rolled back; the stores that are left are given. -/
  | undoing (c : CallId) (r : TransactionRef) (access : Access) (cause : Cause)
    (stores : List Store)
  /-- It has found its transaction active, and is about to commit it. -/
  | deciding (c : CallId) (r : TransactionRef)
  /-- Its transaction is being prepared. -/
  | preparing (c : CallId) (r : TransactionRef) (stores : List Store)
  /-- Its transaction is being committed. -/
  | committing (c : CallId) (r : TransactionRef) (stores : List Store)
deriving DecidableEq

namespace Stage

/-- The call that goes on. -/
def call? : Stage → Option CallId
  | concluded _ => none
  | taking c .. | looking c .. | granted c .. | failed c .. | undoing c .. | deciding c _
  | preparing c .. | committing c .. => some c

/-- The transaction of the call that goes on, and the use it makes of it. -/
def user? : Stage → Option (TransactionRef × Access)
  | concluded _ => none
  | taking _ r .. | looking _ r .. | granted _ r .. | failed _ r .. => some (r, .shared)
  | undoing _ r access .. => some (r, access)
  | deciding _ r | preparing _ r .. | committing _ r .. => some (r, .exclusive)

end Stage

namespace Reply

/-- Why a store that answers so has not prepared a transaction, if it has not. -/
def prepareError? (store : Store) : Reply → Option Error
  | done => none
  | declined => some (.prepareFailed store.name "voted to abort")
  | failed message => some (.prepareFailed store.name message)

/-- Why a store that answers so has not committed a transaction, if it has not. -/
def commitError? (store : Store) : Reply → Option Error
  | failed message => some (.commitFailed store.name message)
  | _ => none

end Reply

/-- Whether a call at this point is asleep on a lock. -/
def Point.isAsleep : Point → Bool
  | waiting .. => true
  | _ => false

/-- What a call returns after it has rolled its transaction back. -/
def Cause.outcome : Cause → Outcome
  | failure error => .failed error
  | request | removal => .ok .unit

/-- The lock as a request looks at it. -/
def Lock.approach (l : Lock) (i : TransactionId) (kind : Request) (hasWaited : Bool) : Lock :=
  if hasWaited then l else l.enter i kind

namespace System

/-- A request that is about to look at a lock. -/
def attempt (s : System) (c : CallId) (r : TransactionRef) (kind : Request) (deadline : Deadline)
    (hasWaited : Bool) : Attempt :=
  { call := c, transaction := r.id, request := kind, hasWaited
    isInterrupted := (s.transactionAt r).isInterrupted, isLate := deadline == .passed }

section Attempt

variable {s : System} {c : CallId} {r : TransactionRef} {kind : Request} {d : Deadline} {w : Bool}

@[simp] theorem attempt_call : (s.attempt c r kind d w).call = c := rfl

@[simp] theorem attempt_transaction : (s.attempt c r kind d w).transaction = r.id := rfl

@[simp] theorem attempt_request : (s.attempt c r kind d w).request = kind := rfl

end Attempt

/-- One thing that a call does on its way from one stage to the next.  The call that goes on is
not among the calls in progress. -/
inductive Advance : System → Stage → System → Stage → Prop
  | done {s c r d} : Advance s (.taking c r d []) s (.concluded (.returned (.ok .unit)))
  | refuse {s c r d n rest} (hi : (s.transactionAt r).isInterrupted = true) :
    Advance s (.taking c r d (n :: rest)) (s.addLock (.entity n.entity))
      (.failed c r (.plan n.entity rest) .interrupted)
  | covered {s c r d n rest} (hi : (s.transactionAt r).isInterrupted = false)
      (hk : Request.of? ((s.lockAt (.entity n.entity)).modeOf r.id) n.mode = none) :
    Advance s (.taking c r d (n :: rest)) (s.addLock (.entity n.entity))
      (.granted c r d (.plan n.entity rest) false)
  | ask {s c r d n rest kind} (hi : (s.transactionAt r).isInterrupted = false)
      (hk : Request.of? ((s.lockAt (.entity n.entity)).modeOf r.id) n.mode = some kind) :
    Advance s (.taking c r d (n :: rest))
      ((s.addLock (.entity n.entity)).setWaitingOn r (some (.entity n.entity)))
      (.looking c r (.entity n.entity) kind d (.plan n.entity rest) false)
  | sleep {s c r name kind d goal w g}
      (hj : (s.attempt c r kind d w).judge ((s.lockAt name).approach r.id kind w) s.graph =
        (g, .sleeps)) :
    Advance s (.looking c r name kind d goal w)
      (((s.modifyLock name fun l => (l.approach r.id kind w).park c r.id kind).setGraph g).suspend c
        ⟨r, .shared, .waiting name d goal⟩)
      (.concluded (.asleep c))
  | grant {s c r name kind d goal w g}
      (hj : (s.attempt c r kind d w).judge ((s.lockAt name).approach r.id kind w) s.graph =
        (g, .granted)) :
    Advance s (.looking c r name kind d goal w)
      (((s.modifyLock name fun l => (l.approach r.id kind w).grant r.id kind).setGraph
        ((s.attempt c r kind d w).leave g)).setWaitingOn r none)
      (.granted c r d goal w)
  | fail {s c r name kind d goal w g error}
      (hj : (s.attempt c r kind d w).judge ((s.lockAt name).approach r.id kind w) s.graph =
        (g, .failed error)) :
    Advance s (.looking c r name kind d goal w)
      (((s.modifyLock name fun l => (l.approach r.id kind w).abandon r.id).setGraph
        ((s.attempt c r kind d w).leave g)).setWaitingOn r none)
      (.failed c r goal error)
  | grantedSingle {s c r d w} :
    Advance s (.granted c r d .single w) s (.concluded (.returned (.ok (.flag w))))
  | keep {s c r d e rest w} (hs : (s.transactionAt r).state = .active) :
    Advance s (.granted c r d (.plan e rest) w)
      ((s.modifyTransaction r fun t => { t with lockSet := t.lockSet.insert e }).setStatistics
        (s.statistics.countGrant w))
      (.taking c r d rest)
  | giveBack {s c r d e rest w} (hs : (s.transactionAt r).state ≠ .active) :
    Advance s (.granted c r d (.plan e rest) w) (s.release r.id (.entity e))
      (.failed c r (.plan e rest) .interrupted)
  | failedSingle {s c r error} :
    Advance s (.failed c r .single error) s (.concluded (.returned (.failed error)))
  | abort {s c r e rest error} (hs : (s.transactionAt r).state.canRollBack = true) :
    Advance s (.failed c r (.plan e rest) error)
      ((s.setStatistics (s.statistics.countFailure error)).setState r .aborting)
      (.undoing c r .shared (.failure error) (s.transactionAt r).stores)
  | abortEnded {s c r e rest error} (hs : (s.transactionAt r).state.canRollBack = false) :
    Advance s (.failed c r (.plan e rest) error)
      (s.setStatistics (s.statistics.countFailure error)) (.concluded (.returned (.failed error)))
  | undo {s c r access cause store rest} :
    Advance s (.undoing c r access cause (store :: rest))
      (s.suspend c ⟨r, access, .rollingBack store rest cause⟩)
      (.concluded (.storeCall c ⟨store, r, .rollback⟩))
  | undone {s c r access cause} (hc : cause ≠ .removal) :
    Advance s (.undoing c r access cause [])
      (((s.setState r .aborted).retire r).setStatistics s.statistics.countRollback)
      (.concluded (.returned cause.outcome))
  | removed {s c r access} :
    Advance s (.undoing c r access .removal [])
      ((((s.setState r .aborted).retire r).setStatistics s.statistics.countRollback).alert r)
      (.concluded (.returned (.ok .unit)))
  | beginPhased {s c r} (ht : s.twoPhaseCommit r.manager = true) :
    Advance s (.deciding c r) (s.setState r .committing)
      (.preparing c r (s.transactionAt r).stores)
  | beginAtOnce {s c r} (ht : s.twoPhaseCommit r.manager = false) :
    Advance s (.deciding c r) (s.setState r .committing)
      (.committing c r (s.transactionAt r).stores)
  | prepare {s c r store rest} :
    Advance s (.preparing c r (store :: rest)) (s.suspend c ⟨r, .exclusive, .preparing store rest⟩)
      (.concluded (.storeCall c ⟨store, r, .prepare⟩))
  | prepared {s c r} :
    Advance s (.preparing c r []) s (.committing c r (s.transactionAt r).stores)
  | commit {s c r store rest} :
    Advance s (.committing c r (store :: rest))
      (s.suspend c ⟨r, .exclusive, .committing store rest⟩)
      (.concluded (.storeCall c ⟨store, r, .commit⟩))
  | committed {s c r} :
    Advance s (.committing c r [])
      (((s.setState r .committed).retire r).setStatistics s.statistics.countCommit)
      (.concluded (.returned (.ok .unit)))

/-- All that a call does until it has returned, fallen asleep or called a store. -/
inductive Advances : System → Stage → System × Response → Prop
  | concluded {s response} : Advances s (.concluded response) (s, response)
  | step {s p s' p' result} : Advance s p s' p' → Advances s' p' result → Advances s p result

/-- What an event does before the first stage of its call. -/
inductive Start : System → Event → System → Stage → Prop
  | quiet {s e response} (hr : ∀ c call, response ≠ .storeCall c call)
      (hc : ∀ c answer, e = .reply c answer → ∀ k, s.calls[c]? = some k → k.point.isAsleep) :
    Start s e s (.concluded response)
  | begin {s m n} (hn : s.begun[m]? = some n) :
    Start s (.begin m)
      { s with
        begun := s.begun.set m (n + 1), transactions := s.transactions.insert ⟨m, n + 1⟩ {} }
      (.concluded (.returned (.ok (.id (n + 1)))))
  | lock {s r e mode} (ha : s.admits r .shared = true)
      (hs : (s.transactionAt r).state = .active) :
    Start s (.lock r e mode) s (.taking s.nextCall r s.lockDeadline (s.granularity.needs e mode))
  | lockAll {s r requests} (ha : s.admits r .shared = true)
      (hs : (s.transactionAt r).state = .active) :
    Start s (.lockAll r requests) s
      (.taking s.nextCall r s.lockDeadline (s.granularity.needsOfAll requests))
  | acquire {s r name mode d kind} (ha : s.admits r .shared = true) (hl : name ∈ s.locks)
      (hi : (s.transactionAt r).isInterrupted = false)
      (hk : Request.of? ((s.lockAt name).modeOf r.id) mode = some kind) :
    Start s (.acquire r name mode d) (s.setWaitingOn r (some name))
      (.looking s.nextCall r name kind d .single false)
  | upgrade {s r name d} (ha : s.admits r .shared = true) (hl : name ∈ s.locks)
      (hi : (s.transactionAt r).isInterrupted = false)
      (hk : (s.lockAt name).modeOf r.id ≠ some .exclusive) :
    Start s (.upgrade r name d) (s.setWaitingOn r (some name))
      (.looking s.nextCall r name .upgrade d .single false)
  | release {s i name} (hl : name ∈ s.locks) :
    Start s (.release i name) (s.release i name) (.concluded (.returned (.ok .unit)))
  | register {s r store} (ha : s.admits r .shared = true)
      (hs : (s.transactionAt r).state = .active)
      (hn : ∀ known ∈ (s.transactionAt r).stores, known.key ≠ store.key) :
    Start s (.register r store)
      (s.modifyTransaction r fun t => { t with stores := t.stores ++ [store] })
      (.concluded (.returned (.ok (.flag true))))
  | commit {s r} (ha : s.admits r .exclusive = true)
      (hs : (s.transactionAt r).state = .active)
      (hi : (s.transactionAt r).isInterrupted = false) :
    Start s (.commit r) s (.deciding s.nextCall r)
  | commitInterrupted {s r} (ha : s.admits r .exclusive = true)
      (hi : (s.transactionAt r).isInterrupted = true)
      (hs : (s.transactionAt r).state.canRollBack = true) :
    Start s (.commit r) (s.setState r .aborting)
      (.undoing s.nextCall r .exclusive (.failure .interrupted) (s.transactionAt r).stores)
  | rollback {s r} (ha : s.admits r .exclusive = true)
      (hs : (s.transactionAt r).state.canRollBack = true) :
    Start s (.rollback r) (s.setState r .aborting)
      (.undoing s.nextCall r .exclusive .request (s.transactionAt r).stores)
  | drop {s r} (ha : s.admits r .exclusive = true)
      (hs : (s.transactionAt r).state.canRollBack = true) :
    Start s (.drop r)
      ((s.modifyTransaction r fun t => { t with isOwned := false }).setState r .aborting)
      (.undoing s.nextCall r .exclusive .request (s.transactionAt r).stores)
  | dropEnded {s r} (ha : s.admits r .exclusive = true)
      (hs : (s.transactionAt r).state.canRollBack = false) :
    Start s (.drop r) (s.modifyTransaction r fun t => { t with isOwned := false })
      (.concluded (.returned (.ok .unit)))
  | interrupt {s r} (hr : r ∈ s.transactions) :
    Start s (.interrupt r) (s.interrupt r) (.concluded (.returned (.ok (.id r.id))))
  | managerInterrupt {s r} (hr : (s.registeredState? r).isSome) :
    Start s (.managerInterrupt r) (s.interrupt r) (.concluded (.returned (.ok .unit)))
  | remove {s r} (hs : s.registeredState? r = some .active) :
    Start s (.remove r)
      (s.modifyTransaction r fun t => { t with state := .aborting, isInterrupted := true })
      (.undoing s.nextCall r .unowned .removal (s.transactionAt r).stores)
  | unlockAll {s r} (ha : s.admits r .shared = true) :
    Start s (.unlockAll r) (s.releaseAll r) (.concluded (.returned (.ok .unit)))
  | forget {s r} (ha : s.admits r .shared = true) :
    Start s (.forget r) (s.forget r) (.concluded (.returned (.ok .unit)))
  | wait {s i blockers outcome} :
    Start s (.wait i blockers) (s.setGraph (s.graph.wait i blockers).1)
      (.concluded (.returned outcome))
  | stopWaiting {s i} :
    Start s (.stopWaiting i) (s.setGraph (s.graph.stopWaiting i))
      (.concluded (.returned (.ok .unit)))
  | removeWaits {s i} :
    Start s (.removeWaits i) (s.setGraph (s.graph.remove i)) (.concluded (.returned (.ok .unit)))
  | wake {s c r name d goal w} (hk : s.calls[c]? = some ⟨r, .shared, .waiting name d goal⟩)
      (hw : (s.lockAt name).waiter? c = some w) :
    Start s (.wake c) ((s.dismiss c).modifyLock name (·.rouse w))
      (.looking c r name w.request d goal true)
  | expire {s c r name d goal w} (hk : s.calls[c]? = some ⟨r, .shared, .waiting name d goal⟩)
      (hd : d ≠ .never) (hw : (s.lockAt name).waiter? c = some w) :
    Start s (.expire c) ((s.dismiss c).modifyLock name (·.rouse w))
      (.looking c r name w.request .passed goal true)
  | expireIdle {s c r name d goal}
      (hk : s.calls[c]? = some ⟨r, .shared, .waiting name d goal⟩)
      (hw : (s.lockAt name).waiter? c = none) :
    Start s (.expire c) (s.suspend c ⟨r, .shared, .waiting name .passed goal⟩) (.concluded .refused)
  | pace {s isLate} :
    Start s (.pace isLate) { s with isLate } (.concluded (.returned (.ok .unit)))
  | prepared {s c r access store rest answer}
      (hk : s.calls[c]? = some ⟨r, access, .preparing store rest⟩)
      (ha : answer.prepareError? store = none) :
    Start s (.reply c answer) (s.dismiss c) (.preparing c r rest)
  | notPrepared {s c r access store rest answer error}
      (hk : s.calls[c]? = some ⟨r, access, .preparing store rest⟩)
      (ha : answer.prepareError? store = some error)
      (hs : (s.transactionAt r).state.canRollBack = true) :
    Start s (.reply c answer) ((s.dismiss c).setState r .aborting)
      (.undoing c r access (.failure error) (s.transactionAt r).stores)
  | notPreparedEnded {s c r access store rest answer error}
      (hk : s.calls[c]? = some ⟨r, access, .preparing store rest⟩)
      (ha : answer.prepareError? store = some error)
      (hs : (s.transactionAt r).state.canRollBack = false) :
    Start s (.reply c answer) (s.dismiss c) (.concluded (.returned (.failed error)))
  | committed {s c r access store rest answer}
      (hk : s.calls[c]? = some ⟨r, access, .committing store rest⟩)
      (ha : answer.commitError? store = none) :
    Start s (.reply c answer) (s.dismiss c) (.committing c r rest)
  | notCommitted {s c r access store rest answer error}
      (hk : s.calls[c]? = some ⟨r, access, .committing store rest⟩)
      (ha : answer.commitError? store = some error)
      (hs : (s.transactionAt r).state.canRollBack = true) :
    Start s (.reply c answer) ((s.dismiss c).setState r .aborting)
      (.undoing c r access (.failure error) (s.transactionAt r).stores)
  | notCommittedEnded {s c r access store rest answer error}
      (hk : s.calls[c]? = some ⟨r, access, .committing store rest⟩)
      (ha : answer.commitError? store = some error)
      (hs : (s.transactionAt r).state.canRollBack = false) :
    Start s (.reply c answer) (s.dismiss c) (.concluded (.returned (.failed error)))
  | rolledBack {s c r access store rest cause answer statistics}
      (hk : s.calls[c]? = some ⟨r, access, .rollingBack store rest cause⟩) :
    Start s (.reply c answer) ((s.dismiss c).setStatistics statistics)
      (.undoing c r access cause rest)

end System

end Locking
