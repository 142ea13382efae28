import Capability.Rehearsal.Drill
import Capability.Main
import Capability.Proofs.Course
import Capability.Proofs.Ensures
import Capability.Proofs.Growth
import Capability.Proofs.Settled
import Capability.Proofs.Steady
import Capability.Proofs.FanOut
import Capability.Proofs.Race
import Capability.Proofs.Boundaries
import Capability.Proofs.Plays
import Capability.Proofs.Grammar
import Capability.Proofs.Levels
import Capability.Proofs.Checked
import Capability.Proofs.Replies
import Capability.Proofs.Accounts
import Capability.Proofs.Failures
import Capability.Proofs.Heeding
import Capability.Proofs.Cancellation
import Capability.Proofs.Depth
import Capability.Proofs.Termination
import Capability.Proofs.Terminal
import Capability.Proofs.Dispatches
import Capability.Proofs.Budgets
import Capability.Proofs.Records
import Capability.Proofs.Tours
import Capability.Proofs.Accounting
import Capability.Proofs.Passes
import Capability.Proofs.Bindings
import Capability.Proofs.Variables
import Capability.Proofs.Reachability
import Capability.Proofs.Pairing
import Capability.Proofs.Invocations
import Capability.Proofs.Alternatives
import Capability.Proofs.Justification
import Capability.Proofs.Deeds
import Capability.Proofs.Asides
import Capability.Proofs.Chronicle
import Capability.Proofs.Reports
import Capability.Proofs.Catalogs
import Capability.Proofs.Blanks
import Capability.Proofs.Malformed
import Capability.Proofs.Separation
import Capability.Proofs.Merging
import Capability.Proofs.Nearest
import Capability.Proofs.Fields
import Capability.Proofs.Spellings
import Capability.Proofs.Laps
import Capability.Proofs.Exploration
import Capability.Proofs.Trials
import Capability.Proofs.Exhaustion
import Capability.Proofs.Reckoning
import Capability.Proofs.Retries
import Capability.Proofs.Orphans
import Capability.Proofs.Ways
import Capability.Proofs.Longest
import Capability.Proofs.Doubles
import Capability.Proofs.Numerals
import Capability.Proofs.Equality
import Capability.Proofs.Repetition
import Capability.Proofs.Schedules
import Capability.Proofs.Truncation
import Capability.Proofs.Rearrangement
import Capability.Proofs.Waits
import Capability.Proofs.Drawing
