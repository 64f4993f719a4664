import ReversibleSynthesis.Json.Decode
import ReversibleSynthesis.Netlist

namespace ReversibleSynthesis

def Json.asQubit? : Json → Option Nat := Json.asNat? (Nat.pow 2 32)

namespace Operation

def toJson : Operation Float → Json
  | .x => .string "X"
  | .h => .string "H"
  | .p angle => .object [("P", .float angle)]

def ofJson? (j : Json) : Option (Operation Float) := do
  match ← j.variant? with
  | ("X", content) => if Json.noContent content then some .x else none
  | ("H", content) => if Json.noContent content then some .h else none
  | ("P", some angle) => return .p (← angle.asFloat?)
  | _ => none

end Operation

namespace Gate

def toJson (g : Gate Float) : Json :=
  .object [("kind", g.operation.toJson), ("controls", .list .nat g.controls),
    ("target", .nat g.target)]

def ofJson? (j : Json) : Option (Gate Float) := do
  let [some kind, some controls, some target] ← j.fields? ["kind", "controls", "target"] | none
  return ⟨← Operation.ofJson? kind, ← controls.asList? Json.asQubit?, ← target.asQubit?⟩

end Gate

namespace Qubit

def toJson (q : Qubit) : Json :=
  .object [("id", .nat q.id), ("register", .optional .string q.register?),
    ("index", .optional .nat q.index?)]

def ofJson? (j : Json) : Option Qubit := do
  let [some id, register, index] ← j.fields? ["id", "register", "index"] | none
  return ⟨← id.asQubit?, ← (register.getD .null).asOptional? Json.asString?,
    ← (index.getD .null).asOptional? Json.asQubit?⟩

end Qubit

namespace Netlist

def toJson (n : Netlist Float) : Json :=
  .object [("name", .string n.name), ("qubits", .list Qubit.toJson n.qubits),
    ("gates", .list Gate.toJson n.gates)]

def ofJson? (j : Json) : Option (Netlist Float) := do
  let [some name, some qubits, some gates] ← j.fields? ["name", "qubits", "gates"] | none
  return ⟨← name.asString?, ← qubits.asList? Qubit.ofJson?, ← gates.asList? Gate.ofJson?⟩

end Netlist

end ReversibleSynthesis
