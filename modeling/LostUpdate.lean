import LostUpdate.Main
import LostUpdate.Proofs.Course.Routes
import LostUpdate.Proofs.Race.BackEdges
import LostUpdate.Proofs.Race.Cases
import LostUpdate.Proofs.Race.Climbs
import LostUpdate.Proofs.Race.Composition
import LostUpdate.Proofs.Race.Counters
import LostUpdate.Proofs.Race.Handlers
import LostUpdate.Proofs.Race.Operations
import LostUpdate.Proofs.Race.Resumability
import LostUpdate.Proofs.Race.Settling
import LostUpdate.Proofs.Race.Sharing
import LostUpdate.Proofs.Race.StraightLine
import LostUpdate.Proofs.Report.Runs
import LostUpdate.Proofs.Scope.Lone
import LostUpdate.Proofs.Walk.Completion
import LostUpdate.Proofs.Walk.Order
import LostUpdate.Proofs.Walk.Reachability
import LostUpdate.Proofs.Walk.Whole
