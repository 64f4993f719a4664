import ReversibleSynthesis.Synthesis.Phase
import ReversibleSynthesis.TruthTable.ReedMuller

namespace ReversibleSynthesis

inductive Strategy where
  | spectrum
  | pkrm
  | pprm
  deriving DecidableEq, Repr

namespace Strategy

def name : Strategy → String
  | .spectrum => "spectrum"
  | .pkrm => "pkrm"
  | .pprm => "pprm"

def all : List Strategy := [.spectrum, .pkrm, .pprm]

def ofName? (name : String) : Option Strategy :=
  all.find? fun s => s.name == String.ofList (name.toList.map Char.toLower)

def ofName (name : String) : Except SynthesisError Strategy :=
  match ofName? name with
  | some s => .ok s
  | none => .error (.unknownStrategy name)

def maxPolarityVars : Nat := 12

end Strategy

namespace SingleTarget

variable {α : Type}

def cube (f : TruthTable) : Cube Bool f.numVars := Cube.tabulate f.numVars f.bit

def products (n : Nat) (coefficients : Array Bool) : List (Gate α) :=
  (ReedMuller.monomials coefficients).map fun m => Gate.mcx (setBits n m) n

def phases [Angle α] (f : TruthTable) : Cube α (f.numVars + 1) :=
  let value (b : Bool) : α := if b then Angle.pi else Angle.zero
  let values := cube f
  .join (values.map fun _ => Angle.zero) (values.map value)

def spectrum [Angle α] (f : TruthTable) : List (Gate α) :=
  let n := f.numVars
  Gate.hadamard n :: PhasePolynomial.circuit (n + 1) (phases f).phaseTerms ++ [Gate.hadamard n]

def positivePolarity (f : TruthTable) : List (Gate α) := products f.numVars (f.expansion 0)

def bestPolarity (f : TruthTable) : List (Gate α) :=
  let best := f.bestExpansion
  let negations := (setBits f.numVars best.polarity).map Gate.not
  negations ++ products f.numVars best.coefficients ++ negations

def circuit [Angle α] (f : TruthTable) : Strategy → Except SynthesisError (List (Gate α))
  | .spectrum => .ok (spectrum f)
  | .pkrm => .ok (positivePolarity f)
  | .pprm =>
    if Strategy.maxPolarityVars < f.numVars then
      .error (.polaritySearchTooLarge f.numVars Strategy.maxPolarityVars)
    else .ok (bestPolarity f)

def embed [Angle α] (strategy : Strategy) (f : TruthTable) (n : Netlist α) (qubits : List Nat) :
    Netlist α × Option SynthesisError :=
  if qubits.length ≠ f.numVars + 1 then
    (n, some (.qubitCountMismatch (f.numVars + 1) qubits.length))
  else
    match circuit f strategy with
    | .error e => (n, some e)
    | .ok gates => n.place qubits gates

end SingleTarget

def synthesizeOracle {α : Type} [Angle α] (f : TruthTable) (strategy : Strategy) :
    Except SynthesisError (Netlist α) := do
  Netlist.ofCircuit "oracle" (f.numVars + 1) (← SingleTarget.circuit f strategy)

end ReversibleSynthesis
