import JavaMinus.Files.Store
import JavaMinus.Json.Writer
import JavaMinus.Main
import JavaMinus.Proofs.Constants.Rounds
import JavaMinus.Proofs.Constants.Writes
import JavaMinus.Proofs.Emission.Discipline
import JavaMinus.Proofs.Emission.Refusals
import JavaMinus.Proofs.Emission.Targets
import JavaMinus.Proofs.Lowering.Returns
import JavaMinus.Symbols.Format
import JavaMinus.Tree.Make
import JavaMinus.Proofs.Emission.Slots
import JavaMinus.Proofs.Lowering.Paths
import JavaMinus.Proofs.Lowering.Temporaries
import JavaMinus.Proofs.Emission.Invocations
import JavaMinus.Proofs.Emission.Linking
import JavaMinus.Proofs.Emission.Kinds
import JavaMinus.Proofs.Emission.Stops
import JavaMinus.Proofs.Emission.Typing
import JavaMinus.Proofs.Constants.Typing
import JavaMinus.Proofs.Lowering.Typing
import JavaMinus.Proofs.Emission.Verified
import JavaMinus.Proofs.Constants.Fixpoint
import JavaMinus.Proofs.Emission.Comparisons
import JavaMinus.Proofs.Tree.RoundTrip
import JavaMinus.Proofs.Emission.Relabelling
import JavaMinus.Proofs.Constants.Idempotence
import JavaMinus.Proofs.Lowering.Breaches
import JavaMinus.Proofs.Lowering.Varargs
import JavaMinus.Proofs.Emission.Increments
import JavaMinus.Proofs.Lowering.Requests
import JavaMinus.Proofs.Lowering.ValueTypes
import JavaMinus.Proofs.Files.Atomicity
import JavaMinus.Proofs.Emission.Buffers
import JavaMinus.Proofs.Emission.Descriptors
