import Locking.System.Ending
import Locking.Lock.Attempt

/-! How transactions get locks: the locks that a request needs are taken one after the other, and
the call falls asleep where one of them cannot be granted. -/

namespace Locking

namespace Granularity

/-- The locks that are needed to lock an entity: shared ones on its containers, then its own. -/
def needs (g : Granularity) (e : EntityId) (mode : LockMode) : List Need :=
  (g.containers e).map (⟨·, .shared⟩) ++ [⟨e, mode⟩]

/-- The strongest mode that is requested for each entity. -/
def strongestModes (requests : List Need) : Std.ExtTreeMap EntityId LockMode :=
  requests.foldl (fun modes n => modes.alter n.entity fun
    | some mode => some (mode.strongest n.mode)
    | none => some n.mode) ∅

/-- The locks that are needed to lock a set of entities, in ascending order of the entities. -/
def needsOfAll (g : Granularity) (requests : List Need) : List Need :=
  (strongestModes requests).toList.flatMap fun (e, mode) => g.needs e mode

end Granularity

namespace System

/-! ### One lock -/

/-- Lets a request that is awake look at its lock.  Unless it falls asleep, its transaction no
longer waits. -/
def look (s : System) (c : CallId) (r : TransactionRef) (name : LockName) (request : Request)
    (deadline : Deadline) (hasWaited : Bool) : System × Verdict :=
  let attempt : Attempt :=
    { call := c, transaction := r.id, request, hasWaited
      isInterrupted := (s.transactionAt r).isInterrupted, isLate := deadline == .passed }
  match attempt.run (s.lockAt name) s.graph with
  | (l, graph, .sleeps) => ({ s.modifyLock name fun _ => l with graph }, .sleeps)
  | (l, graph, verdict) =>
    ({ s.modifyLock name fun _ => l with graph }.setWaitingOn r none, verdict)

/-- Makes a request for a lock: its transaction waits on the lock until the request has come to
its end, and an upgrade gives up the shared hold first. -/
def request (s : System) (c : CallId) (r : TransactionRef) (name : LockName) (kind : Request)
    (deadline : Deadline) : System × Verdict :=
  let s := s.setWaitingOn r (some name)
  let s := if kind = .upgrade then s.modifyLock name (·.beginUpgrade r.id) else s
  s.look c r name kind deadline false

/-- Asks for a lock in a mode.  Nothing is requested if the transaction holds enough already. -/
def ask (s : System) (c : CallId) (r : TransactionRef) (name : LockName) (mode : LockMode)
    (deadline : Deadline) : System × Option Verdict :=
  if (s.transactionAt r).isInterrupted then (s, some (.failed .interrupted))
  else match Request.of? ((s.lockAt name).modeOf r.id) mode with
    | none => (s, none)
    | some kind =>
      let (s, verdict) := s.request c r name kind deadline
      (s, some verdict)

/-! ### A plan -/

/-- Enters a granted lock into the lock set.  If the transaction is no longer active its locks have
been released, so this one is released, too. -/
def keep (s : System) (r : TransactionRef) (e : EntityId) (hasWaited : Bool) :
    System × Option Error :=
  if (s.transactionAt r).state = .active then
    let s := s.modifyTransaction r fun t => { t with lockSet := t.lockSet.insert e }
    ({ s with statistics := s.statistics.countGrant hasWaited }, none)
  else (s.release r.id (.entity e), some .interrupted)

/-- Takes the locks that a call still needs.  The first one that fails aborts the transaction. -/
def take (s : System) (c : CallId) (r : TransactionRef) (deadline : Deadline) :
    List Need → System × Response
  | [] => s.conclude c (.ok .unit)
  | n :: rest =>
    match (s.addLock (.entity n.entity)).ask c r (.entity n.entity) n.mode deadline with
    | (s, some .sleeps) =>
      (s.suspend c ⟨r, .shared, .waiting (.entity n.entity) deadline (.plan n.entity rest)⟩,
        .asleep c)
    | (s, some (.failed error)) => s.abort c r error
    | (s, _) =>
      match s.keep r n.entity false with
      | (s, none) => s.take c r deadline rest
      | (s, some error) => s.abort c r error

def lock (s : System) (c : CallId) (r : TransactionRef) (e : EntityId) (mode : LockMode) :
    System × Response :=
  match (s.transactionAt r).refusal? with
  | some error => (s, .returned (.failed error))
  | none => s.take c r s.lockDeadline (s.granularity.needs e mode)

def lockAll (s : System) (c : CallId) (r : TransactionRef) (requests : List Need) :
    System × Response :=
  match (s.transactionAt r).refusal? with
  | some error => (s, .returned (.failed error))
  | none => s.take c r s.lockDeadline (s.granularity.needsOfAll requests)

/-! ### A single lock -/

/-- Goes on with a call that wants a single lock; such a lock enters no lock set. -/
def single (s : System) (c : CallId) (r : TransactionRef) (name : LockName)
    (deadline : Deadline) : Verdict → System × Response
  | .granted => s.conclude c (.ok (.flag false))
  | .failed error => s.conclude c (.failed error)
  | .sleeps => (s.suspend c ⟨r, .shared, .waiting name deadline .single⟩, .asleep c)

def acquire (s : System) (c : CallId) (r : TransactionRef) (name : LockName) (mode : LockMode)
    (deadline : Deadline) : System × Response :=
  match s.ask c r name mode deadline with
  | (s, none) => s.conclude c (.ok (.flag false))
  | (s, some verdict) => s.single c r name deadline verdict

/-- Upgrades the hold of a lock to an exclusive one, also if there is no hold to give up. -/
def upgrade (s : System) (c : CallId) (r : TransactionRef) (name : LockName)
    (deadline : Deadline) : System × Response :=
  if (s.transactionAt r).isInterrupted then s.conclude c (.failed .interrupted)
  else if (s.lockAt name).modeOf r.id = some .exclusive then s.conclude c (.ok (.flag false))
  else
    let (s, verdict) := s.request c r name .upgrade deadline
    s.single c r name deadline verdict

/-! ### Waking up -/

/-- Goes on with a call whose request was granted after it had been asleep. -/
def goOn (s : System) (c : CallId) (r : TransactionRef) (deadline : Deadline) :
    Goal → System × Response
  | .single => s.conclude c (.ok (.flag true))
  | .plan e rest =>
    match s.keep r e true with
    | (s, none) => s.take c r deadline rest
    | (s, some error) => s.abort c r error

/-- Lets a sleeping call wake up and look at its lock again. -/
def wake (s : System) (c : CallId) : System × Response :=
  match s.calls[c]? with
  | some ⟨r, _, .waiting name deadline goal⟩ =>
    match (s.lockAt name).waiter? c with
    | none => (s, .refused)
    | some w =>
      match (s.modifyLock name (·.rouse w)).look c r name w.request deadline true with
      | (s, .sleeps) => (s, .asleep c)
      | (s, .granted) => s.goOn c r deadline goal
      | (s, .failed error) =>
        match goal with
        | .single => s.conclude c (.failed error)
        | .plan .. => s.abort c r error
  | _ => (s, .refused)

/-- Lets the deadline of a sleeping call pass, which wakes it up. -/
def expire (s : System) (c : CallId) : System × Response :=
  match s.calls[c]? with
  | some ⟨_, _, .waiting _ .never _⟩ => (s, .refused)
  | some ⟨r, access, .waiting name _ goal⟩ =>
    (s.suspend c ⟨r, access, .waiting name .passed goal⟩).wake c
  | _ => (s, .refused)

end System

end Locking
