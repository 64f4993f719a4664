import ReversibleSynthesis.Network
import ReversibleSynthesis.Verilog.Dependency
import ReversibleSynthesis.Verilog.Error
import ReversibleSynthesis.Verilog.Module
import ReversibleSynthesis.Verilog.Reader

namespace ReversibleSynthesis.Verilog

namespace Module

def declaredNames (m : Module) : List String := m.inputs ++ m.outputs ++ m.wires

def firstRepeated? (seen : List String) : List String → Option String
  | [] => none
  | name :: rest => if name ∈ seen then some name else firstRepeated? (name :: seen) rest

def checkDeclarations (m : Module) : Except Error Unit :=
  match firstRepeated? [] m.declaredNames with
  | some name => .error (.duplicateDeclaration name)
  | none => .ok ()

def checkTargets (m : Module) (driven : List String) : List Assign → Except Error Unit
  | [] => .ok ()
  | a :: rest =>
    if a.target ∈ m.inputs then .error (.assignToInput a.target)
    else if a.target ∉ m.declaredNames then .error (.undefinedIdentifier a.target)
    else if a.target ∈ driven then .error (.duplicateDeclaration a.target)
    else checkTargets m (a.target :: driven) rest

def driver? (m : Module) (name : String) : Option Nat :=
  m.assigns.findIdx? fun a => a.target == name

def useEdge (m : Module) (user : Nat) (name : String) : Except Error (Option (Nat × Nat)) :=
  if name ∈ m.inputs then .ok none
  else if name ∉ m.declaredNames then .error (.undefinedIdentifier name)
  else
    match m.driver? name with
    | some driver => .ok (some (driver, user))
    | none => .error (.undrivenSignal name)

def uses (m : Module) : List (Nat × String) :=
  (m.assigns.mapIdx fun user a => a.expr.identifiers.map (user, ·)).flatten

def dependencies (m : Module) : Except Error DependencyGraph := do
  let edges ← m.uses.mapM fun (user, name) => m.useEdge user name
  return ⟨m.assigns.length, edges.filterMap id⟩

end Module

structure Elaborated where
  network : Network
  signals : List (String × Signal)

namespace Elaborated

def signal? (e : Elaborated) (name : String) : Option Signal := e.signals.lookup name

def bind (e : Elaborated) (name : String) (s : Signal) : Elaborated :=
  { e with signals := (name, s) :: e.signals }

def addInput (e : Elaborated) (name : String) : Elaborated :=
  let (s, network) := e.network.createInput name
  { e with network := network }.bind name s

def createGate (network : Network) (op : BinaryOperator) (a b : Signal) :
    Except Error (Signal × Network) :=
  (match op with
    | .and => network.createAnd a b
    | .or => network.createOr a b
    | .xor => network.createXor a b).mapError .network

def expression (signals : List (String × Signal)) (network : Network) :
    Expression → Except Error (Signal × Network)
  | .identifier name =>
    match signals.lookup name with
    | some s => .ok (s, network)
    | none => .error (.undefinedIdentifier name)
  | .constant value => .ok (.const value, network)
  | .not inner => do
    let (s, network) ← expression signals network inner
    return (s.complement, network)
  | .binary left op right => do
    let (a, network) ← expression signals network left
    let (b, network) ← expression signals network right
    createGate network op a b

def assign (e : Elaborated) (a : Assign) : Except Error Elaborated := do
  let (s, network) ← expression e.signals e.network a.expr
  return { e with network := network }.bind a.target s

def addOutput (e : Elaborated) (name : String) : Except Error Elaborated :=
  match e.signal? name with
  | none => .error (.undrivenSignal name)
  | some s => (e.network.createOutput s name).mapError .network |>.map ({ e with network := · })

end Elaborated

def Module.toNetwork (m : Module) : Except Error Network := do
  m.checkDeclarations
  m.checkTargets [] m.assigns
  let graph ← m.dependencies
  let order ← match graph.order with
    | .ok order => pure order
    | .error v => throw (.combinationalLoop ((m.assigns[v]?.map Assign.target).getD ""))
  let start := m.inputs.foldl Elaborated.addInput ⟨.empty, []⟩
  let assigned ← (order.filterMap (m.assigns[·]?)).foldlM Elaborated.assign start
  let complete ← m.outputs.foldlM Elaborated.addOutput assigned
  return complete.network

def parse (source : String) : Except Error Network := do
  (← parseModule source).toNetwork

end ReversibleSynthesis.Verilog
