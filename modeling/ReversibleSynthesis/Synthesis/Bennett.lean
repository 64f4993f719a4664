import ReversibleSynthesis.Network
import ReversibleSynthesis.Synthesis.Placement
import ReversibleSynthesis.Verilog.Elaboration

namespace ReversibleSynthesis.Bennett

structure Layout where
  inputs : List Nat
  ancillae : List Nat
  outputs : List Nat
  deriving DecidableEq, Repr

inductive Operand where
  | const (value : Bool)
  | qubit (id : Nat) (complemented : Bool)
  deriving DecidableEq, Repr

def Layout.of (n : Network) : Layout :=
  let gates := n.numGates
  ⟨List.range n.numInputs, (List.range gates).map (n.numInputs + ·),
    (List.range n.numOutputs).map (n.numInputs + gates + ·)⟩

def assignment (n : Network) (layout : Layout) : List (Nat × Nat) :=
  n.inputs.zip layout.inputs ++ (n.gates.map Prod.fst).zip layout.ancillae

def qubit? (qubits : List (Nat × Nat)) (node : Nat) : Option Nat := qubits.reverse.lookup node

def operand (qubits : List (Nat × Nat)) (s : Signal) : Operand :=
  match qubit? qubits s.node with
  | some q => .qubit q s.complemented
  | none => .const s.complemented

variable {α : Type}

def notIf (negate : Bool) (qubit : Nat) : List (Gate α) := if negate then [Gate.not qubit] else []

def Operand.copies (target : Nat) : Operand → List (Gate α)
  | .const _ => []
  | .qubit q _ => [Gate.cnot q target]

def Operand.inverts : Operand → Bool
  | .const value => value
  | .qubit _ complemented => complemented

def toggleXor (operands : List Operand) (target : Nat) : List (Gate α) :=
  operands.flatMap (Operand.copies target) ++
    notIf (operands.foldl (fun flip o => flip ^^ o.inverts) false) target

def toggleAnd (a b : Operand) (target : Nat) : List (Gate α) :=
  match a, b with
  | .const false, _ => []
  | _, .const false => []
  | .const true, other => toggleXor [other] target
  | other, .const true => toggleXor [other] target
  | .qubit qa ca, .qubit qb cb =>
    if qa = qb then (if ca = cb then toggleXor [a] target else [])
    else
      notIf ca qa ++ notIf cb qb ++ [Gate.toffoli qa qb target] ++ notIf ca qa ++ notIf cb qb

def compute (qubits : List (Nat × Nat)) (target : Nat) : Node → List (Gate α)
  | .constant => []
  | .input _ => []
  | .and a b => toggleAnd (operand qubits a) (operand qubits b) target
  | .xor a b => toggleXor [operand qubits a, operand qubits b] target
  | .maj a b c =>
      let (a, b, c) := (operand qubits a, operand qubits b, operand qubits c)
      toggleAnd a b target ++ toggleAnd a c target ++ toggleAnd b c target

def blocks (n : Network) (qubits : List (Nat × Nat)) : List (List (Gate α)) :=
  n.gates.map fun (id, node) =>
    match qubit? qubits id with
    | some target => compute qubits target node
    | none => []

def circuit (n : Network) (layout : Layout) : List (Gate α) :=
  let qubits := assignment n layout
  let computed : List (List (Gate α)) := blocks n qubits
  let copied := (n.outputs.zip layout.outputs).flatMap fun (output, q) =>
    toggleXor [operand qubits output.signal] q
  computed.flatten ++ copied ++ computed.reverse.flatten

def registers (n : Network) : Netlist α :=
  let netlist := (Netlist.empty "lhrs").addRegister "inputs" n.numInputs |>.2
  let netlist := netlist.addRegister "ancillae" n.numGates |>.2
  netlist.addRegister "outputs" n.numOutputs |>.2

def synthesize (n : Network) : Except SynthesisError (Netlist α × Layout) :=
  let layout := Layout.of n
  match (registers n).extend (circuit n layout) with
  | (netlist, none) => .ok (netlist, layout)
  | (_, some e) => .error (.gate e)

end ReversibleSynthesis.Bennett

namespace ReversibleSynthesis

def synthesizeVerilog {α : Type} (source : String) :
    Except SynthesisError (Netlist α × Bennett.Layout) := do
  Bennett.synthesize (← (Verilog.parse source).mapError .verilog)

end ReversibleSynthesis
