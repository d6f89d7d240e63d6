import RollCall.Main
import RollCall.Proofs.Attendance
import RollCall.Proofs.Cadence
import RollCall.Proofs.Connection
import RollCall.Proofs.Departure
import RollCall.Proofs.EntrantText
import RollCall.Proofs.ExactSeconds
import RollCall.Proofs.Gathering
import RollCall.Proofs.GivenDurations
import RollCall.Proofs.IdentitySuffix
import RollCall.Proofs.IdentityText
import RollCall.Proofs.Launched
import RollCall.Proofs.Layers
import RollCall.Proofs.Lifecycle
import RollCall.Proofs.Modes
import RollCall.Proofs.MoreTime
import RollCall.Proofs.Overrides
import RollCall.Proofs.Participants
import RollCall.Proofs.Parties
import RollCall.Proofs.PlanDocument
import RollCall.Proofs.Presentation
import RollCall.Proofs.Release
import RollCall.Proofs.Schedule
import RollCall.Proofs.ScopeContract
import RollCall.Proofs.Separation
import RollCall.Proofs.Verdict
import RollCall.Scenario.Run
