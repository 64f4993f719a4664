import ReversibleSynthesis.Network
import ReversibleSynthesis.TruthTable

namespace ReversibleSynthesis

inductive SimulationError where
  | invalid (error : InputError)
  | missingNode (node : Nat)
  deriving DecidableEq, Repr

def Signal.table (tables : Array TruthTable) (s : Signal) : Except SimulationError TruthTable :=
  match tables[s.node]? with
  | none => .error (.missingNode s.node)
  | some t => .ok (if s.complemented then t.complement else t)

def TruthTable.majority (a b c : TruthTable) : TruthTable :=
  ((a.and b).or (a.and c)).or (b.and c)

def Node.table (numVars : Nat) (tables : Array TruthTable) :
    Node → Except SimulationError TruthTable
  | .constant => (TruthTable.const0 numVars).mapError .invalid
  | .input index => (TruthTable.nthVar numVars index).mapError .invalid
  | .and a b => return (← a.table tables).and (← b.table tables)
  | .xor a b => return (← a.table tables).xor (← b.table tables)
  | .maj a b c => return .majority (← a.table tables) (← b.table tables) (← c.table tables)

def Network.nodeTables (n : Network) : Except SimulationError (Array TruthTable) :=
  n.nodes.foldlM (fun tables node => return tables.push (← node.table n.numInputs tables)) #[]

def Network.simulate (n : Network) : Except SimulationError (List TruthTable) := do
  let tables ← n.nodeTables
  n.outputs.mapM fun output => output.signal.table tables

def Signal.value (values : Array Bool) (s : Signal) : Bool :=
  values.getD s.node false ^^ s.complemented

def Node.value (assignment : Nat → Bool) (values : Array Bool) : Node → Bool
  | .constant => false
  | .input index => assignment index
  | .and a b => a.value values && b.value values
  | .xor a b => a.value values ^^ b.value values
  | .maj a b c =>
      (a.value values && b.value values) || (a.value values && c.value values) ||
        (b.value values && c.value values)

def Network.values (n : Network) (assignment : Nat → Bool) : Array Bool :=
  n.nodes.foldl (fun values node => values.push (node.value assignment values)) #[]

def Network.eval (n : Network) (assignment : Nat → Bool) (s : Signal) : Bool :=
  s.value (n.values assignment)

end ReversibleSynthesis
