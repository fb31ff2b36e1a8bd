import ArmBackend.Main
import ArmBackend.Proofs.Frame.Order
import ArmBackend.Proofs.Input.RoundTrip
import ArmBackend.Proofs.Lowering.Assembly
import ArmBackend.Proofs.Lowering.Behaviour
import ArmBackend.Proofs.Lowering.ConsumedTypes
import ArmBackend.Proofs.Lowering.Sharing
import ArmBackend.Proofs.Lowering.Warnings
import ArmBackend.Proofs.Lowering.Widening
import ArmBackend.Proofs.Machine.Conduct
import ArmBackend.Proofs.Machine.Encoding
import ArmBackend.Proofs.Machine.Exits
import ArmBackend.Proofs.Machine.Folding
import ArmBackend.Proofs.Machine.Settling
import ArmBackend.Proofs.Passes.Convergence
import ArmBackend.Proofs.Passes.Courses
import ArmBackend.Proofs.Passes.Lockstep
import ArmBackend.Proofs.Session.Literals
import ArmBackend.Proofs.Session.Phases
import ArmBackend.Proofs.Session.Validation
import ArmBackend.Proofs.Source.Lookup
import ArmBackend.Proofs.Text.Asciz
