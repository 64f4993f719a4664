import ReversibleSynthesis.Json.Decode
import ReversibleSynthesis.TruthTable

namespace ReversibleSynthesis.TruthTable

def toJson (t : TruthTable) : Json :=
  .object [("num_vars", .nat t.numVars),
    ("words", .list (fun w : UInt64 => .nat w.toNat) t.words.toList)]

def ofJson? (j : Json) : Option TruthTable := do
  let [some numVars, some words] ← j.fields? ["num_vars", "words"] | none
  return ⟨← numVars.asNat? (Nat.pow 2 32),
    ((← words.asList? (Json.asNat? (Nat.pow 2 64))).map UInt64.ofNat).toArray⟩

end ReversibleSynthesis.TruthTable
