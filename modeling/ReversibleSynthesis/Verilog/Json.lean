import ReversibleSynthesis.Json.Value
import ReversibleSynthesis.Verilog.Module

namespace ReversibleSynthesis.Verilog

def BinaryOperator.toJson : BinaryOperator → Json
  | .and => .string "And"
  | .or => .string "Or"
  | .xor => .string "Xor"

def Expression.toJson : Expression → Json
  | .identifier name => .object [("Identifier", .string name)]
  | .constant value => .object [("Constant", .bool value)]
  | .not inner => .object [("Not", inner.toJson)]
  | .binary left op right =>
      .object [("BinOp",
        .object [("left", left.toJson), ("op", op.toJson), ("right", right.toJson)])]

def Assign.toJson (a : Assign) : Json :=
  .object [("target", .string a.target), ("expr", a.expr.toJson), ("line", .nat a.line)]

def Module.toJson (m : Module) : Json :=
  .object [("name", .string m.name), ("ports", .list .string m.ports),
    ("inputs", .list .string m.inputs), ("outputs", .list .string m.outputs),
    ("wires", .list .string m.wires), ("assigns", .list Assign.toJson m.assigns)]

end ReversibleSynthesis.Verilog
