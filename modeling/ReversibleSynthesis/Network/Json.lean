import ReversibleSynthesis.Json.Decode
import ReversibleSynthesis.Network

namespace ReversibleSynthesis

def Json.asNode? : Json → Option Nat := Json.asNat? (Nat.pow 2 32)

namespace Signal

def toJson (s : Signal) : Json :=
  .object [("node", .nat s.node), ("complemented", .bool s.complemented)]

def ofJson? (j : Json) : Option Signal := do
  let [some node, some complemented] ← j.fields? ["node", "complemented"] | none
  return ⟨← node.asNode?, ← complemented.asBool?⟩

end Signal

namespace Node

def toJson : Node → Json
  | .constant => .string "Constant"
  | .input index => .object [("Input", .object [("index", .nat index)])]
  | .and a b => .object [("And", .list Signal.toJson [a, b])]
  | .xor a b => .object [("Xor", .list Signal.toJson [a, b])]
  | .maj a b c => .object [("Maj", .list Signal.toJson [a, b, c])]

def ofJson? (j : Json) : Option Node := do
  match ← j.variant? with
  | ("Constant", content) => if Json.noContent content then some .constant else none
  | ("Input", some content) =>
    let [some index] ← content.fields? ["index"] | none
    return .input (← index.asNode?)
  | ("And", some content) =>
    let [a, b] ← content.asList? Signal.ofJson? | none
    return .and a b
  | ("Xor", some content) =>
    let [a, b] ← content.asList? Signal.ofJson? | none
    return .xor a b
  | ("Maj", some content) =>
    let [a, b, c] ← content.asList? Signal.ofJson? | none
    return .maj a b c
  | _ => none

end Node

namespace Output

def toJson (o : Output) : Json :=
  .object [("name", .string o.name), ("signal", o.signal.toJson)]

def ofJson? (j : Json) : Option Output := do
  let [some name, some signal] ← j.fields? ["name", "signal"] | none
  return ⟨← name.asString?, ← Signal.ofJson? signal⟩

end Output

namespace Network

def toJson (n : Network) : Json :=
  .object [("nodes", .list Node.toJson n.nodes.toList), ("inputs", .list .nat n.inputs),
    ("input_names", .list .string n.inputNames), ("outputs", .list Output.toJson n.outputs)]

def ofJson? (j : Json) : Option Network := do
  let [some nodes, some inputs, some names, some outputs] ←
    j.fields? ["nodes", "inputs", "input_names", "outputs"] | none
  let nodes ← nodes.asList? Node.ofJson?
  return ⟨nodes.toArray, ← inputs.asList? Json.asNode?, ← names.asList? Json.asString?,
    ← outputs.asList? Output.ofJson?, []⟩

end Network

end ReversibleSynthesis
