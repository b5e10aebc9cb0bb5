import Evm.Main
import Evm.Json.Parser
import Evm.Proofs.Journal
import Evm.Proofs.Recording
import Evm.Proofs.Evaluation
import Evm.Proofs.Steps
import Evm.Proofs.Boundary
import Evm.Proofs.Nesting
import Evm.Proofs.Atomicity
import Evm.Proofs.Metering
import Evm.Proofs.Costs
import Evm.Proofs.Calls
import Evm.Proofs.Turns
import Evm.Proofs.Progress
import Evm.Proofs.Reachable
import Evm.Proofs.Termination
import Evm.Proofs.Recursion
import Evm.Proofs.Conservation
import Evm.Proofs.Restraint
import Evm.Proofs.StaticCalls
import Evm.Proofs.Stipends
import Evm.Proofs.Laws
import Evm.Proofs.Contracts
import Evm.Proofs.Balances
import Evm.Proofs.Comparison
import Evm.Proofs.Parallel
import Evm.Proofs.Lockstep
import Evm.Proofs.Induction
import Evm.Proofs.Reporting
import Evm.Proofs.Repair
import Evm.Proofs.Traces
import Evm.Proofs.Deeds
import Evm.Proofs.Passages
import Evm.Proofs.Logs
import Evm.Proofs.Recall
import Evm.Proofs.Refunds
import Evm.Proofs.Checks
import Evm.Proofs.Guards
import Evm.Proofs.Touches
import Evm.Proofs.Warmth
import Evm.Proofs.Tracing
import Evm.Proofs.Observation
import Evm.Proofs.FirstTouches
import Evm.Proofs.StorePaths
import Evm.Proofs.Forks
import Evm.Proofs.Settlements
import Evm.Proofs.Texts
import Evm.Proofs.RoundTrips
import Evm.Proofs.Partition
import Evm.Proofs.ByteMaps
import Evm.Proofs.Operands
import Evm.Proofs.Footprints
import Evm.Proofs.CallFootprints
import Evm.Proofs.Books
import Evm.Proofs.StackBounds
import Evm.Proofs.Expansion
import Evm.Proofs.MemoryMaps
import Evm.Proofs.ModularPowers
import Evm.Proofs.Precompiled
import Evm.Proofs.Writes
import Evm.Proofs.StoreUses
import Evm.Proofs.Words
import Evm.Proofs.Integers
import Evm.Proofs.Numerals
import Evm.Proofs.Malleability
import Evm.Proofs.Rlp
import Evm.Proofs.Preimages
import Evm.Proofs.EarlyFailures
import Evm.Proofs.Grammars
import Evm.Proofs.PointEncodings
