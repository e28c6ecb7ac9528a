import Locking.Scenario.Session

/-! What the steps of a scenario amount to: a look at the system, or an event that happens to it. -/

namespace Locking.Scenario

namespace Session

/-- A timeout of this many milliseconds or more never passes within a scenario. -/
def longTimeout : Nat := 60000

/-- Whether a timeout passes before the next step. -/
def isShort (timeout : Option Nat) : Bool := timeout.any (· < longTimeout)

/-- The deadline that a timeout sets to a request that is made now. -/
def deadline : Option Nat → Deadline
  | none => .never
  | some 0 => .passed
  | some _ => .ahead

/-- What a step amounts to: a result that is only looked up, or an event, which is waited for if
its timeout is short. -/
inductive Action where
  | result (result : Result)
  | event (event : Event) (isShort : Bool)

def Action.now (event : Event) : Action := .event event false

/-- Lets `f` name a lock.  A free-standing lock comes into being when it is first named. -/
def withLock (s : Session) (name : LockName) (f : System → Action) : Session × Action :=
  match name with
  | .free _ => let system := s.system.addLock name; ({ s with system }, f system)
  | .entity e =>
    match s.system.lock? e with
    | some _ => (s, f s.system)
    | none => (s, .result .noLock)

def withHandle (s : Session) (handle : String) (f : TransactionRef → Session × Action) :
    Session × Action :=
  match s.handles[handle]? with
  | some r => f r
  | none => (s, .result .busy)

/-- Whether the lock requests of transactions have a short timeout. -/
def hasShortWaits (s : Session) : Bool := isShort (s.system.lockWaitTimeout.map (·.milliseconds))

def action (s : Session) : Step → Session × Action
  | .begin _ manager => (s, .now (.begin manager))
  | .lock h e mode => s.withHandle h fun r => (s, .event (.lock r e mode) s.hasShortWaits)
  | .lockAll h requests =>
    s.withHandle h fun r => (s, .event (.lockAll r requests) s.hasShortWaits)
  | .acquire h name mode timeout =>
    s.withHandle h fun r => s.withLock name fun _ =>
      .event (.acquire r name mode (deadline timeout)) (isShort timeout)
  | .upgrade h name timeout =>
    s.withHandle h fun r => s.withLock name fun _ =>
      .event (.upgrade r name (deadline timeout)) (isShort timeout)
  | .release i name => s.withLock name fun _ => .now (.release i name)
  | .modeOf i name => s.withLock name fun system => .result (.mode ((system.lockAt name).modeOf i))
  | .register h store =>
    s.withHandle h fun r =>
      let name := ((s.stores[store]?).map (·.volatile.name)).getD ""
      (s, .now (.register r ⟨store, name⟩))
  | .commit h => s.withHandle h fun r => (s, .now (.commit r))
  | .rollback h => s.withHandle h fun r => (s, .now (.rollback r))
  | .drop h => s.withHandle h fun r => (s, .now (.drop r))
  | .interrupt h => s.withHandle h fun r => (s, .now (.interrupt r))
  | .managerInterrupt r => (s, .now (.managerInterrupt r))
  | .remove r => (s, .now (.remove r))
  | .state r => (s, .result (.state (s.system.registeredState? r)))
  | .unlockAll h => s.withHandle h fun r => (s, .now (.unlockAll r))
  | .forget h => s.withHandle h fun r => (s, .now (.forget r))
  | .probe e => (s, .result (.probe (s.probe e)))
  | .wait i blockers =>
    ({ s with mentioned := s.mentioned.insert i }, .now (.wait i blockers))
  | .stopWaiting i => (s, .now (.stopWaiting i))
  | .removeWaits i => (s, .now (.removeWaits i))

end Session

end Locking.Scenario
