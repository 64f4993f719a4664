import ReversibleSynthesis.Gate

namespace ReversibleSynthesis

structure Qubit where
  id : Nat
  register? : Option String
  index? : Option Nat
  deriving DecidableEq, Repr

def Qubit.text (q : Qubit) : String :=
  match q.register?, q.index? with
  | some register, some index => s!"{register}[{index}]"
  | _, _ => s!"q{q.id}"

structure Netlist (α : Type) where
  name : String
  qubits : List Qubit
  gates : List (Gate α)
  deriving DecidableEq, Repr

namespace Netlist

variable {α : Type}

def empty (name : String) : Netlist α := ⟨name, [], []⟩

def numQubits (n : Netlist α) : Nat := n.qubits.length

def numGates (n : Netlist α) : Nat := n.gates.length

def addQubit (n : Netlist α) : Nat × Netlist α :=
  (n.numQubits, { n with qubits := n.qubits ++ [⟨n.numQubits, none, none⟩] })

def addRegister (n : Netlist α) (register : String) (size : Nat) : List Nat × Netlist α :=
  let fresh := (List.range size).map
    (fun i => (⟨n.numQubits + i, some register, some i⟩ : Qubit))
  (fresh.map Qubit.id, { n with qubits := n.qubits ++ fresh })

def withQubits (name : String) (size : Nat) : Netlist α :=
  ⟨name, (List.range size).map (fun i => ⟨i, none, none⟩), []⟩

def apply (n : Netlist α) (g : Gate α) : Except GateError (Netlist α) :=
  match g.fault? n.numQubits with
  | some e => .error e
  | none => .ok { n with gates := n.gates ++ [g] }

def extend (n : Netlist α) (gs : List (Gate α)) : Netlist α × Option GateError :=
  let size := n.numQubits
  ({ n with gates := n.gates ++ gs.takeWhile (fun g => (g.fault? size).isNone) },
    gs.findSome? (fun g => g.fault? size))

def register (n : Netlist α) (name : String) : List Nat :=
  (n.qubits.filter (fun q => q.register? == some name)).map Qubit.id

def bump (name : String) : List (String × Nat) → List (String × Nat)
  | [] => [(name, 1)]
  | (other, k) :: rest =>
      if name = other then (other, k + 1) :: rest
      else if name < other then (name, 1) :: (other, k) :: rest
      else (other, k) :: bump name rest

def gateCounts (n : Netlist α) : List (String × Nat) :=
  n.gates.foldl (fun counts g => bump g.name counts) []

def isClassical (n : Netlist α) : Bool := n.gates.all Gate.isClassical

def numPhaseGates (n : Netlist α) : Nat := n.gates.countP Gate.isDiagonal

def inverse [Neg α] (n : Netlist α) : Netlist α :=
  { n with name := n.name ++ "_inverse", gates := (n.gates.map Gate.inverse).reverse }

def text (angleText : α → String) (n : Netlist α) : String :=
  s!"// {n.name}: {n.numQubits} qubits, {n.numGates} gates\n" ++
    String.join (n.gates.map (fun g => g.text angleText ++ ";\n"))

end Netlist

end ReversibleSynthesis
