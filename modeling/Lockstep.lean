import Lockstep.Builder
import Lockstep.Main
import Lockstep.Proofs.Kernel.Commutation
import Lockstep.Proofs.LoopBarriers.Erasure
import Lockstep.Proofs.LoopBarriers.Guarantees
import Lockstep.Proofs.Kernel.Outcome
import Lockstep.Proofs.Kernel.Widening
import Lockstep.Proofs.Kernel.Callees
import Lockstep.Proofs.Kernel.HeaderText
import Lockstep.Proofs.Kernel.Atomicity
import Lockstep.Proofs.Validity
import Lockstep.Proofs.Report
import Lockstep.Proofs.LoopBarriers.Changes
import Lockstep.Proofs.LoopBarriers.Convergence
import Lockstep.Proofs.Flow.Dominance
import Lockstep.Proofs.Flow.Loops
import Lockstep.Proofs.Flow.Containment
import Lockstep.Proofs.Flow.Postorder
import Lockstep.Proofs.Builder
import Lockstep.Proofs.Json.Reader
import Lockstep.Proofs.Json.Codec
import Lockstep.Proofs.Json.Nesting
import Lockstep.Proofs.Interchange.Ty
import Lockstep.Proofs.Interchange.Instruction
import Lockstep.Proofs.Interchange.Module
import Lockstep.Proofs.Flow.LoopUpdate
import Lockstep.Proofs.LoopBarriers.Paths
import Lockstep.Proofs.LoopBarriers.Rerun
import Lockstep.Proofs.Function.Split
import Lockstep.Proofs.Kernel.OneByOne
import Lockstep.Proofs.LoopBarriers.Disjoint
import Lockstep.Proofs.DataLayout.Alignment
import Lockstep.Proofs.Flow.ReversePostorder
import Lockstep.Proofs.Flow.Rounds
