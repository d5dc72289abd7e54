import NibbleMachine.CommandLine
import NibbleMachine.Main
import NibbleMachine.Proofs.Configurations
import NibbleMachine.Proofs.Drivers
import NibbleMachine.Proofs.Faults
import NibbleMachine.Proofs.ForwardJumps
import NibbleMachine.Proofs.Invariant
import NibbleMachine.Proofs.Listing
import NibbleMachine.Proofs.SourceLines
import NibbleMachine.Proofs.WordProcessor
import NibbleMachine.Session.Request
import NibbleMachine.Proofs.Frame
import NibbleMachine.Proofs.WithoutArithmetic
import NibbleMachine.Proofs.Loads
import NibbleMachine.Proofs.Arguments
import NibbleMachine.Proofs.Calls
import NibbleMachine.Proofs.Atomicity
import NibbleMachine.Proofs.Allowances
import NibbleMachine.Proofs.Classification
import NibbleMachine.Proofs.Layout
import NibbleMachine.Proofs.Resumption
import NibbleMachine.Proofs.Wraparound
import NibbleMachine.Proofs.Dumps
import NibbleMachine.Proofs.Hexadecimal
import NibbleMachine.Proofs.OperandTexts
import NibbleMachine.Proofs.Transcripts
import NibbleMachine.Proofs.LastWrites
import NibbleMachine.Proofs.Readers
import NibbleMachine.Proofs.Reports
