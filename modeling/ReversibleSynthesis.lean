import ReversibleSynthesis.CommandLine.Directory
import ReversibleSynthesis.Main
import ReversibleSynthesis.Netlist.Run
import ReversibleSynthesis.Network.Json
import ReversibleSynthesis.Network.Simulation
import ReversibleSynthesis.Permutation.Json
import ReversibleSynthesis.TruthTable.Json
import ReversibleSynthesis.Verilog.Json
import ReversibleSynthesis.Proofs.Bits
import ReversibleSynthesis.Proofs.Placement
import ReversibleSynthesis.Proofs.Netlist
import ReversibleSynthesis.Proofs.Netlist.Inverse
import ReversibleSynthesis.Proofs.ParityTerms
import ReversibleSynthesis.Proofs.ParityTerms.Accumulation
import ReversibleSynthesis.Proofs.Sweep
import ReversibleSynthesis.Proofs.Traversal
import ReversibleSynthesis.Proofs.Elimination
import ReversibleSynthesis.Proofs.PhasePolynomial
import ReversibleSynthesis.Proofs.Bennett
import ReversibleSynthesis.Proofs.Permutation
import ReversibleSynthesis.Proofs.Permutation.Validation
import ReversibleSynthesis.Proofs.ReedMuller
import ReversibleSynthesis.Proofs.TruthTable
import ReversibleSynthesis.Proofs.Colouring
import ReversibleSynthesis.Proofs.Colouring.Search
import ReversibleSynthesis.Proofs.SingleTarget
import ReversibleSynthesis.Proofs.Decomposition
import ReversibleSynthesis.Proofs.Transformation
import ReversibleSynthesis.Proofs.Network.Value
import ReversibleSynthesis.Proofs.Verilog.Dependency
import ReversibleSynthesis.Proofs.Verilog.Module
import ReversibleSynthesis.Proofs.Verilog.Elaboration
import ReversibleSynthesis.Proofs.Verilog.Loop
import ReversibleSynthesis.Proofs.Verilog.Comment
import ReversibleSynthesis.Proofs.Verilog.Grammar
import ReversibleSynthesis.Proofs.Verilog.Reader
import ReversibleSynthesis.Proofs.Verilog.Completion
import ReversibleSynthesis.Proofs.Network.Construction
import ReversibleSynthesis.Proofs.Network.Simulation
import ReversibleSynthesis.Proofs.Walsh
import ReversibleSynthesis.Proofs.Walsh.InPlace
import ReversibleSynthesis.Proofs.PhaseFunction
import ReversibleSynthesis.Proofs.Diagonal
import ReversibleSynthesis.Proofs.Double
import ReversibleSynthesis.Proofs.AngleNotation
import ReversibleSynthesis.Proofs.Amplitude
import ReversibleSynthesis.Proofs.Spectrum
import ReversibleSynthesis.Proofs.Traversal.Completeness
import ReversibleSynthesis.Proofs.Refusal
import ReversibleSynthesis.Proofs.Verilog.Printing
import ReversibleSynthesis.Proofs.TruthTable.Representation
import ReversibleSynthesis.Proofs.TruthTable.Text
import ReversibleSynthesis.Proofs.Decomposition.Calls
import ReversibleSynthesis.Proofs.Network.Sharing
import ReversibleSynthesis.Proofs.Polarity
