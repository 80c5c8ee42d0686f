import JitBackend.Main
import JitBackend.Proofs.Allocation
import JitBackend.Proofs.Assignments
import JitBackend.Proofs.CallAgreement
import JitBackend.Proofs.CheckedReferences
import JitBackend.Proofs.ClockAllocation
import JitBackend.Proofs.Decoding
import JitBackend.Proofs.Folding
import JitBackend.Proofs.Layout
import JitBackend.Proofs.Optimisation
import JitBackend.Proofs.ReceivedParameters
import JitBackend.Proofs.RegisterLookups
import JitBackend.Proofs.Sharing
import JitBackend.Proofs.StaleBlocks
