import ReversibleSynthesis.Json.Value

namespace ReversibleSynthesis.Json

def escape? (c : Char) : Option String :=
  if c == '"' then some "\\\""
  else if c == '\\' then some "\\\\"
  else if c == '\n' then some "\\n"
  else if c == '\r' then some "\\r"
  else if c == '\t' then some "\\t"
  else if c.toNat == 8 then some "\\b"
  else if c.toNat == 12 then some "\\f"
  else if c.toNat < 0x20 then
    some ("\\u00" ++ String.ofList [Nat.digitChar (c.toNat / 16), Nat.digitChar (c.toNat % 16)])
  else none

def quote (text : String) : String :=
  "\"" ++ String.join (text.toList.map fun c => (escape? c).getD c.toString) ++ "\""

def atomText : Json → String
  | .null => "null"
  | .bool b => if b then "true" else "false"
  | .number literal => literal
  | .string text => quote text
  | .unreadable => "null"
  | _ => ""

def lead (isFirst : Bool) (indent? : Option Nat) : String :=
  (if isFirst then "" else ",") ++
    match indent? with
    | some depth => "\n" ++ String.ofList (List.replicate (2 * depth) ' ')
    | none => ""

mutual

def pieces (indent? : Option Nat) : Json → List String → List String
  | .array [], rest => "[]" :: rest
  | .array items, rest =>
      "[" :: itemPieces (indent?.map (· + 1)) true items (lead true indent? :: "]" :: rest)
  | .object [], rest => "\x7b\x7d" :: rest
  | .object members, rest =>
      "\x7b" :: memberPieces (indent?.map (· + 1)) true members
        (lead true indent? :: "\x7d" :: rest)
  | atom, rest => atomText atom :: rest

def itemPieces (indent? : Option Nat) (isFirst : Bool) : List Json → List String → List String
  | [], rest => rest
  | item :: items, rest =>
      lead isFirst indent? :: pieces indent? item (itemPieces indent? false items rest)

def memberPieces (indent? : Option Nat) (isFirst : Bool) :
    List (String × Json) → List String → List String
  | [], rest => rest
  | (key, value) :: members, rest =>
      lead isFirst indent? :: quote key :: (if indent?.isSome then ": " else ":") ::
        pieces indent? value (memberPieces indent? false members rest)

end

def compact (j : Json) : String := String.join (pieces none j [])

def pretty (j : Json) : String := String.join (pieces (some 0) j [])

end ReversibleSynthesis.Json
