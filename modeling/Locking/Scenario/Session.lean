import Locking.Scenario.Basic
import Locking.System.Step

/-! How a scenario is played: stores reply as their scripts say, notified calls wake up until
everything is asleep, and a call with a short timeout lasts until it returns. -/

namespace Locking.Scenario

def ScriptedStore.hookCount (store : ScriptedStore) : Nat :=
  match store.script with
  | none => 0
  | some script =>
    let count (phase : Phase) : Nat := (script.behaviour phase).hooks.length
    count .prepare + count .commit + count .rollback

structure Session where
  system : System
  stores : List ScriptedStore
  handles : Std.ExtTreeMap String TransactionRef := ∅
  /-- The numbers that can occur as waiting in the wait-for graph. -/
  mentioned : IdSet := ∅
  log : List LogEntry := []
  /-- The calls that have returned after they had been asleep. -/
  returned : List (CallId × Outcome) := []
  /-- The step that has made each sleeping call. -/
  origin : Std.ExtTreeMap CallId Nat := ∅

namespace Session

def start (script : Script) : Session where
  system := .new script.granularity (.replicate script.managers script.config) script.lockConfig
  stores := script.stores

def probe (s : Session) (e : EntityId) : Probe :=
  match s.system.lock? e with
  | none => ⟨false, none, []⟩
  | some l => ⟨true, l.heldMode, l.holders⟩

/-! ### Store calls -/

/-- Writes a call into the journal of its store. -/
def record (s : Session) (call : StoreCall) : Session :=
  { s with
    stores := s.stores.modify call.store.key fun store =>
      { store with volatile := (store.volatile.call call.transaction.id call.phase).1 } }

/-- More than the longest chain of store calls in which each one follows on another: a transaction
calls each store at most once in each phase, and a store that removes a transaction starts the
calls of another one. -/
def longestChain (s : Session) : Nat :=
  (3 * s.stores.length + 2) * (s.system.transactions.size + 2)

/-- Lets a hook of a store run, on behalf of transaction `caller`.  Interrupts and removals return
at once, apart from the store calls that they cause and `carry` sees to. -/
def runHook (carry : Session → Response → Session × Response) (manager : Nat)
    (caller : TransactionId) (s : Session) (hook : Hook) : Session × Finding :=
  let target (i : Option TransactionId) : TransactionRef := ⟨manager, i.getD caller⟩
  let act (event : Event) : Session × Finding :=
    let (system, response) := s.system.step event
    let (s, response) := carry { s with system } response
    (s, .outcome (response.outcome?.getD (.ok .unit)))
  match hook with
  | .state i => (s, .state (s.system.registeredState? (target i)))
  | .interrupt i => act (.managerInterrupt (target i))
  | .remove i => act (.remove (target i))
  | .probe e => (s, .probe (s.probe e))

def runHooks (carry : Session → Response → Session × Response) (manager : Nat)
    (caller : TransactionId) (s : Session) : List Hook → Session × List Finding
  | [] => (s, [])
  | hook :: rest =>
    let (s, finding) := s.runHook carry manager caller hook
    let (s, findings) := s.runHooks carry manager caller rest
    (s, finding :: findings)

/-- Lets the store of a call meet it: the store keeps its journal, runs its hooks, and replies. -/
def meet (carry : Session → Response → Session × Response) (s : Session) (call : StoreCall) :
    Session × Reply :=
  let s := s.record call
  match (s.stores[call.store.key]?).bind (·.script) with
  | none => (s, .done)
  | some script =>
    let behaviour := script.behaviour call.phase
    let (s, findings) := s.runHooks carry script.manager call.transaction.id behaviour.hooks
    let entry := ⟨call.store.key, call.transaction.id, call.phase, findings⟩
    ({ s with log := s.log ++ [entry] }, behaviour.reply)

/-- Goes on with a call, store by store, until it returns or falls asleep; at most `n` stores are
called in a chain. -/
def carry : Nat → Session → Response → Session × Response
  | n + 1, s, .storeCall c call =>
    let (s, reply) := s.meet (carry n) call
    let (system, response) := s.system.step (.reply c reply)
    carry n { s with system } response
  | _, s, response => (s, response)

def act (s : Session) (event : Event) : Session × Response :=
  let (system, response) := s.system.step event
  carry s.longestChain { s with system } response

/-! ### Settling -/

/-- The first call that is about to look at its lock again. -/
def notified? (s : Session) : Option CallId :=
  s.system.calls.toList.findSome? fun (c, call) =>
    match call.point with
    | .waiting name _ _ =>
      match (s.system.lockAt name).waiter? c with
      | some w => if w.isNotified then some c else none
      | none => none
    | _ => none

/-- Lets a call go on by an event, and notes whether it returns. -/
def resume (s : Session) (c : CallId) (event : Event) : Session :=
  match s.act event with
  | (s, .returned outcome) => { s with returned := s.returned ++ [(c, outcome)] }
  | (s, _) => s

/-- The number of times that a waiting call can go on before it returns, or more. -/
def turnsLeft (call : Call) : Nat :=
  match call.point with
  | .waiting _ _ (.plan _ rest) => rest.length + 2
  | _ => 2

/-- More than the number of wake-ups until everything is asleep.  A call that falls asleep again
is notified only if another one goes on, or if a transaction is interrupted or removed by a hook,
and each of that happens only so often. -/
def wakeUps (s : Session) : Nat :=
  let steps := s.system.calls.values.foldl (fun n call => n + turnsLeft call) 1
  let hooks := s.stores.foldl (fun n store => n + store.hookCount) 1
  (steps + s.system.transactions.size * hooks) * (s.system.calls.size + 1)

/-- Wakes up notified calls until there are none, at most `n` times. -/
def settleWithin : Nat → Session → Session
  | 0, s => s
  | n + 1, s =>
    match s.notified? with
    | none => s
    | some c => settleWithin n (s.resume c (.wake c))

/-- Wakes up notified calls until everything is asleep. -/
def settle (s : Session) : Session := settleWithin s.wakeUps s

end Session

end Locking.Scenario
