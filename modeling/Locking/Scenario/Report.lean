import Locking.Scenario.Action
import Locking.Scenario.View

/-! The report of a scenario: the result of every step, what has returned and what has changed
while it lasted, and what is left at the end. -/

namespace Locking.Scenario

structure StepReport where
  result : Result
  done : List (Nat × Result)
  change : Change
  calls : List LogEntry
deriving DecidableEq, Repr

structure Report where
  twoPhaseCommit : Bool
  lockWaitTimeout : Option Duration
  steps : List StepReport
  pending : List Nat
  journals : List Journal
deriving DecidableEq, Repr

namespace Session

/-- Lets an event happen, and everything that follows from it.  An event that is waited for lasts
until its call has returned, if need be because its deadline passes. -/
def perform (s : Session) (event : Event) (isShort : Bool) : Session × Response :=
  match s.act event with
  | (s, .asleep c) =>
    let s := s.settle
    let isAsleep := s.returned.all (·.1 ≠ c)
    (if isShort && isAsleep then (s.resume c (.expire c)).settle else s, .asleep c)
  | (s, response) => (s.settle, response)

/-- Enters a transaction that has been begun. -/
def enter (s : Session) (handle : String) (r : TransactionRef) : Session :=
  { s with handles := s.handles.insert handle r, mentioned := s.mentioned.insert r.id }

/-- The result of a step whose event has been answered by `response`. -/
def resultOf (s : Session) : Response → Result
  | .returned outcome => .outcome outcome
  | .asleep c =>
    match s.returned.lookup c with
    | some outcome => .outcome outcome
    | none => .blocked
  | .storeCall .. | .refused => .busy

def doneSteps (s : Session) : List (Nat × Result) :=
  (s.returned.filterMap fun (c, outcome) => (s.origin[c]?).map (·, Result.outcome outcome))
    |>.mergeSort fun a b => a.1 ≤ b.1

/-- Plays the step with a number, up to the moment when everything is asleep again. -/
def play (s : Session) (index : Nat) (step : Step) : Session × Result :=
  match s.action step with
  | (s, .result result) => (s, result)
  | (s, .event event isShort) =>
    let (s, response) := s.perform event isShort
    let result := s.resultOf response
    let s := match step, result with
      | .begin handle manager, .outcome (.ok (.id i)) => s.enter handle ⟨manager, i⟩
      | _, _ => s
    match response, result with
    | .asleep c, .blocked => ({ s with origin := s.origin.insert c index }, result)
    | _, _ => (s, result)

def report (s : Session) (index : Nat) (step : Step) : Session × StepReport :=
  let before := s.view
  let (s, result) := { s with log := [], returned := [] }.play index step
  let report : StepReport :=
    { result, done := s.doneSteps, change := s.view.changeSince before, calls := s.log }
  let origin := s.returned.foldl (fun origin (c, _) => origin.erase c) s.origin
  ({ s with origin }, report)

def reports (s : Session) (index : Nat) : List Step → Session × List StepReport
  | [] => (s, [])
  | step :: rest =>
    let (s, report) := s.report index step
    let (s, reports) := s.reports (index + 1) rest
    (s, report :: reports)

end Session

def Script.run (script : Script) : Report :=
  let (s, steps) := (Session.start script).reports 0 script.steps
  { twoPhaseCommit := script.config.twoPhaseCommit
    lockWaitTimeout := s.system.lockWaitTimeout
    steps
    pending := s.origin.values.mergeSort
    journals := s.stores.map (·.volatile.journal) }

end Locking.Scenario
