import ReversibleSynthesis.Netlist.Json
import ReversibleSynthesis.Synthesis.Bennett
import ReversibleSynthesis.Json.Writer

namespace ReversibleSynthesis

namespace Bennett

def Layout.toJson (layout : Layout) : Json :=
  .object [("input_indexes", .list .nat layout.inputs),
    ("output_indexes", .list .nat layout.outputs)]

def bracketed (ns : List Nat) : String := "[" ++ ", ".intercalate (ns.map toString) ++ "]"

def Layout.summary (layout : Layout) : String :=
  "  Inputs on " ++ bracketed layout.inputs ++ ", outputs on " ++ bracketed layout.outputs ++
    s!", {layout.ancillae.length} ancillae"

end Bennett

namespace CommandLine

inductive OutputFormat where
  | text
  | json
  deriving DecidableEq, Repr

def OutputFormat.ofName? : String → Option OutputFormat
  | "text" => some .text
  | "json" => some .json
  | _ => none

structure Product where
  netlist : Netlist Float
  layout? : Option Bennett.Layout

namespace Product

def inverse (p : Product) : Product := { p with netlist := p.netlist.inverse }

def report (p : Product) : Json :=
  let n := p.netlist
  .object ([("netlist", n.toJson),
    ("gate_counts", .object (n.gateCounts.map fun (name, k) => (name, .nat k))),
    ("classical", .bool n.isClassical), ("phase_gates", .nat n.numPhaseGates)] ++
    match p.layout? with
    | some layout => [("stats", layout.toJson)]
    | none => [])

def render (p : Product) : OutputFormat → String
  | .text => p.netlist.text Decimal.plain.text
  | .json => p.report.pretty ++ "\n"

end Product

end CommandLine

end ReversibleSynthesis
