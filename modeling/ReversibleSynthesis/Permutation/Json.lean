import ReversibleSynthesis.Json.Value
import ReversibleSynthesis.Permutation

namespace ReversibleSynthesis.Permutation

def toJson (p : Permutation) : Json :=
  .object [("num_vars", .nat p.numVars), ("values", .list .nat p.values.toList)]

end ReversibleSynthesis.Permutation
