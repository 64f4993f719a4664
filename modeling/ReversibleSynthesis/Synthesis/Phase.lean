import ReversibleSynthesis.Cube.Walsh
import ReversibleSynthesis.Synthesis.PhasePolynomial
import ReversibleSynthesis.Synthesis.Placement

namespace ReversibleSynthesis

variable {α : Type} [Angle α]

namespace ParityTerms

def appendTo (terms : ParityTerms α) (n : Netlist α) (qubits : List Nat) :
    Netlist α × Option SynthesisError :=
  let width := qubits.length
  if maxVars < width then (n, some (.input (.tooManyVariables width maxVars)))
  else if width < terms.numVars then (n, some (.qubitCountMismatch terms.numVars width))
  else n.place qubits (PhasePolynomial.circuit width terms)

def toNetlist (terms : ParityTerms α) (name : String) (size : Nat) :
    Except SynthesisError (Netlist α) :=
  match terms.appendTo (.withQubits name size) (List.range size) with
  | (n, none) => .ok n
  | (_, some e) => .error e

end ParityTerms

def synthesizeParity (terms : List (String × α)) : Except SynthesisError (Netlist α) := do
  let terms ← (ParityTerms.ofBitStrings terms).mapError .input
  terms.toNetlist "parity" terms.numVars

def diagonalVars (count : Nat) : Except SynthesisError Nat :=
  match powerOfTwoLog? (count + 1) with
  | none => .error (.invalidAngleCount count)
  | some 0 => .error (.invalidAngleCount count)
  | some n =>
    if TruthTable.maxVars < n then .error (.input (.tooManyVariables n TruthTable.maxVars))
    else .ok n

def synthesizeDiagonal (angles : List α) : Except SynthesisError (Netlist α) := do
  let n ← diagonalVars angles.length
  match angles.findIdx? (fun a => !Angle.isFinite a) with
  | some index => throw (.nonFiniteAngle index)
  | none =>
    let table := angles.toArray
    let phase (x : Nat) : α := if x = 0 then Angle.zero else -table.getD (x - 1) Angle.zero
    (Cube.tabulate n phase).phaseTerms.toNetlist "diagonal" n

end ReversibleSynthesis
