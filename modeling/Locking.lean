import Locking.Lock.Lemmas
import Locking.Proofs.Commit.Failures
import Locking.Proofs.Commit.History
import Locking.Proofs.Commit.Ledger
import Locking.Proofs.Commit.Outcome
import Locking.Proofs.Commit.Plan
import Locking.Proofs.Commit.Protocol
import Locking.Proofs.Commit.Standing
import Locking.Proofs.Commit.Undoing
import Locking.Proofs.Entity.Text
import Locking.Proofs.Hierarchy.Ascent
import Locking.Proofs.Hierarchy.Batch
import Locking.Proofs.Hierarchy.Climb
import Locking.Proofs.Hierarchy.Conflict
import Locking.Proofs.Hierarchy.Contained
import Locking.Proofs.Hierarchy.Isolation
import Locking.Proofs.Hierarchy.Merge
import Locking.Proofs.Lock.Kept
import Locking.Proofs.Lock.Network
import Locking.Proofs.Lock.Parked
import Locking.Proofs.Lock.Precedence
import Locking.Proofs.Lock.Sleepers
import Locking.Proofs.Lock.Sole
import Locking.Proofs.Lock.Sound
import Locking.Proofs.Lock.Traffic
import Locking.Proofs.System.Accounted
import Locking.Proofs.System.Accounts
import Locking.Proofs.System.Aftermath
import Locking.Proofs.System.Attended
import Locking.Proofs.System.Backed
import Locking.Proofs.System.Burden
import Locking.Proofs.System.Caller
import Locking.Proofs.System.Crowd
import Locking.Proofs.System.Deadlock
import Locking.Proofs.System.Deeds
import Locking.Proofs.System.Departed
import Locking.Proofs.System.Ended
import Locking.Proofs.System.Exclusion
import Locking.Proofs.System.Extension
import Locking.Proofs.System.Forgotten
import Locking.Proofs.System.Holdings
import Locking.Proofs.System.Interrupted
import Locking.Proofs.System.Justified
import Locking.Proofs.System.Life
import Locking.Proofs.System.Numbers
import Locking.Proofs.System.Ongoing
import Locking.Proofs.System.Parts
import Locking.Proofs.System.Passage
import Locking.Proofs.System.Possession
import Locking.Proofs.System.Reentry
import Locking.Proofs.System.Registry
import Locking.Proofs.System.Release
import Locking.Proofs.System.Removal
import Locking.Proofs.System.Retained
import Locking.Proofs.System.Schedule
import Locking.Proofs.System.Settling
import Locking.Proofs.System.Stage
import Locking.Proofs.System.Tally
import Locking.Proofs.System.Tethered
import Locking.Proofs.System.Traffic
import Locking.Proofs.System.Waiting
import Locking.Proofs.System.Watched
import Locking.Proofs.WaitForGraph.Cycles
import Locking.Proofs.WaitForGraph.Detection
import Locking.Proofs.WaitForGraph.Sound
import Locking.Scenario.Report
