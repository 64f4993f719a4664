namespace ReversibleSynthesis

inductive Operation (α : Type) where
  | x
  | h
  | p (angle : α)
  deriving DecidableEq, Repr

namespace Operation

variable {α : Type}

def name : Operation α → String
  | .x => "x"
  | .h => "h"
  | .p _ => "p"

def inverse [Neg α] : Operation α → Operation α
  | .x => .x
  | .h => .h
  | .p angle => .p (-angle)

def isDiagonal : Operation α → Bool
  | .p _ => true
  | _ => false

def isClassical : Operation α → Bool
  | .x => true
  | _ => false

def angle? : Operation α → Option α
  | .p angle => some angle
  | _ => none

end Operation

structure Gate (α : Type) where
  operation : Operation α
  controls : List Nat
  target : Nat
  deriving DecidableEq, Repr

inductive GateError where
  | qubitNotFound (qubit : Nat) (gate : String)
  | duplicateQubit (qubit : Nat) (gate : String)
  | targetIsControl (qubit : Nat) (gate : String)
  deriving DecidableEq, Repr

def GateError.message : GateError → String
  | .qubitNotFound q gate => s!"Qubit q{q} not found in netlist (gate: {gate})"
  | .duplicateQubit q gate => s!"Duplicate qubit q{q} in operation (gate: {gate})"
  | .targetIsControl q gate => s!"Target q{q} is also a control of gate '{gate}'"

namespace Gate

variable {α : Type}

def not (target : Nat) : Gate α := ⟨.x, [], target⟩

def cnot (control target : Nat) : Gate α := ⟨.x, [control], target⟩

def toffoli (first second target : Nat) : Gate α := ⟨.x, [first, second], target⟩

def mcx (controls : List Nat) (target : Nat) : Gate α := ⟨.x, controls, target⟩

def hadamard (target : Nat) : Gate α := ⟨.h, [], target⟩

def phase (angle : α) (target : Nat) : Gate α := ⟨.p angle, [], target⟩

def controlMark : Nat → String
  | 0 => ""
  | 1 => "c"
  | 2 => "cc"
  | _ => "mc"

def name (g : Gate α) : String := controlMark g.controls.length ++ g.operation.name

def qubits (g : Gate α) : List Nat := g.controls ++ [g.target]

def inverse [Neg α] (g : Gate α) : Gate α := { g with operation := g.operation.inverse }

def isClassical (g : Gate α) : Bool := g.operation.isClassical

def isDiagonal (g : Gate α) : Bool := g.operation.isDiagonal

def relabel (f : Nat → Nat) (g : Gate α) : Gate α :=
  { g with controls := g.controls.map f, target := f g.target }

def controlFault? (gate : String) (target : Nat) (seen : List Nat) : List Nat → Option GateError
  | [] => none
  | c :: cs =>
      if c = target then some (.targetIsControl c gate)
      else if c ∈ seen then some (.duplicateQubit c gate)
      else controlFault? gate target (c :: seen) cs

def fault? (size : Nat) (g : Gate α) : Option GateError :=
  match g.qubits.find? (fun q => decide (size ≤ q)) with
  | some q => some (.qubitNotFound q g.name)
  | none => controlFault? g.name g.target [] g.controls

def text (angleText : α → String) (g : Gate α) : String :=
  let angle := match g.operation.angle? with
    | some angle => "(" ++ angleText angle ++ ")"
    | none => ""
  g.name ++ angle ++ " " ++ ", ".intercalate (g.qubits.map (fun q => s!"q{q}"))

end Gate

end ReversibleSynthesis
