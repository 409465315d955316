import Latch.Pool.Stage
import Latch.Proofs.Runs
import Latch.Scenario.Session
import Latch.Watchdog
import Latch.Proofs.Registration
import Latch.Proofs.Release
import Latch.Proofs.Callbacks
import Latch.Proofs.Executor
import Latch.Proofs.Errands
import Latch.Proofs.Confluence
import Latch.Proofs.Enrolment
import Latch.Proofs.Accounts
import Latch.Proofs.Fates
import Latch.Proofs.Freshness
import Latch.Proofs.Breaking
import Latch.Proofs.Bystanders
import Latch.Proofs.Permanence
import Latch.Proofs.Cascade
import Latch.Proofs.Exhaustion
import Latch.Proofs.Membership
import Latch.Proofs.Races
import Latch.Proofs.Sharing
import Latch.Proofs.Chains
import Latch.Proofs.Muting
import Latch.Proofs.Rearming
import Latch.Proofs.Emptying
import Latch.Proofs.Careers
import Latch.Proofs.Completion
import Latch.Proofs.Tending
import Latch.Proofs.Recounts
import Latch.Proofs.Copying
import Latch.Proofs.Supervision
import Latch.Proofs.Incidents
import Latch.Proofs.Guards
