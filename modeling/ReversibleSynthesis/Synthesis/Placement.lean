import ReversibleSynthesis.Netlist
import ReversibleSynthesis.Synthesis.Error

namespace ReversibleSynthesis

variable {α : Type}

namespace Netlist

def place (n : Netlist α) (qubits : List Nat) (circuit : List (Gate α)) :
    Netlist α × Option SynthesisError :=
  let wires := qubits.toArray
  let (n, fault?) := n.extend (circuit.map (Gate.relabel fun w => wires.getD w 0))
  (n, fault?.map .gate)

def ofCircuit (name : String) (size : Nat) (circuit : List (Gate α)) :
    Except SynthesisError (Netlist α) :=
  match (withQubits name size).extend circuit with
  | (n, none) => .ok n
  | (_, some e) => .error (.gate e)

end Netlist

end ReversibleSynthesis
