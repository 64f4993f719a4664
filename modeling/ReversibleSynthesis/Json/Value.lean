import ReversibleSynthesis.Decimal.Format

namespace ReversibleSynthesis

inductive Json where
  | null
  | bool (value : Bool)
  | number (literal : String)
  | string (text : String)
  | array (items : List Json)
  | object (members : List (String × Json))
  | unreadable

namespace Json

def nat (n : Nat) : Json := .number (toString n)

def optional {β : Type} (encode : β → Json) : Option β → Json
  | some b => encode b
  | none => .null

def float (a : Float) : Json :=
  if a.isFinite then .number (Decimal.json.text a) else .null

def list {β : Type} (encode : β → Json) (items : List β) : Json := .array (items.map encode)

end Json

end ReversibleSynthesis
