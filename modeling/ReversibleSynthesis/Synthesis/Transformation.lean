import ReversibleSynthesis.Permutation
import ReversibleSynthesis.Synthesis.Placement

namespace ReversibleSynthesis.Transformation

structure Progress where
  images : Array Nat
  gates : List (Nat × Nat)

def flip (controls target value : Nat) : Nat :=
  if value &&& controls = controls then value ^^^ Nat.pow 2 target else value

def Progress.apply (p : Progress) (controls target : Nat) : Progress :=
  ⟨p.images.map (flip controls target), (controls, target) :: p.gates⟩

def setMissing (p : Progress) (y : Nat) : List Nat → Progress × Nat
  | [] => (p, y)
  | b :: bits => setMissing (p.apply y b) (y ||| Nat.pow 2 b) bits

def fix (width : Nat) (p : Progress) (x : Nat) : Progress :=
  let y := p.images.getD x 0
  let missing := (setBits width x).filter fun b => !y.testBit b
  let (p, y) := setMissing p y missing
  let surplus := (setBits width y).filter fun b => !x.testBit b
  surplus.foldl (fun p b => p.apply x b) p

def reduce (perm : Permutation) : Progress :=
  (List.range perm.size).foldl (fix perm.numVars) ⟨perm.values, []⟩

def circuit {α : Type} (perm : Permutation) : List (Gate α) :=
  (reduce perm).gates.map fun (controls, target) => Gate.mcx (setBits perm.numVars controls) target

end ReversibleSynthesis.Transformation

namespace ReversibleSynthesis

def synthesizeByTransformation {α : Type} (values : List Nat) :
    Except SynthesisError (Netlist α) := do
  let perm ← (Permutation.ofValues values).mapError .input
  Netlist.ofCircuit "tbs" perm.numVars (Transformation.circuit perm)

end ReversibleSynthesis
