import ReversibleSynthesis.Decimal.Literal
import ReversibleSynthesis.Json.Value
import ReversibleSynthesis.TruthTable.Text

namespace ReversibleSynthesis.Json

def isBlank (c : Char) : Bool := c == ' ' || c == '\n' || c == '\t' || c == '\r'

def skipBlanks (cs : List Char) : List Char := cs.dropWhile isBlank

def hex4? (a b c d : Char) : Option Nat :=
  [a, b, c, d].foldlM (fun n digit => (TruthTable.hexValue? digit).map (16 * n + ·)) 0

def unescape? : Char → Option Char
  | '"' => some '"'
  | '\\' => some '\\'
  | '/' => some '/'
  | 'b' => some '\x08'
  | 'f' => some '\x0c'
  | 'n' => some '\n'
  | 'r' => some '\r'
  | 't' => some '\t'
  | _ => none

def joinSurrogates? (high low : Nat) : Option Char :=
  if 0xd800 ≤ high ∧ high ≤ 0xdbff ∧ 0xdc00 ≤ low ∧ low ≤ 0xdfff then
    some (Char.ofNat (0x10000 + (high - 0xd800) * 0x400 + (low - 0xdc00)))
  else none

def escapedUnit? : List Char → Option (Nat × List Char)
  | '\\' :: 'u' :: a :: b :: c :: d :: rest => (hex4? a b c d).map (·, rest)
  | _ => none

def surrogateChar (unit : Nat) (rest : List Char) : Option Char × List Char :=
  match escapedUnit? rest with
  | none => (none, rest)
  | some (low, after) =>
    match joinSurrogates? unit low with
    | some c => (some c, after)
    | none => (none, rest)

def escape1? : List Char → Option (Option Char × List Char)
  | 'u' :: a :: b :: c :: d :: rest => do
    let unit ← hex4? a b c d
    if 0xd800 ≤ unit ∧ unit ≤ 0xdfff then return surrogateChar unit rest
    else return (some (Char.ofNat unit), rest)
  | c :: rest => (unescape? c).map fun e => (some e, rest)
  | [] => none

def stringTail (acc : List (Option Char)) :
    Nat → List Char → Option (Option String × List Char)
  | 0, _ => none
  | _, [] => none
  | fuel + 1, c :: rest =>
    if c == '"' then some ((acc.reverse.mapM id).map String.ofList, rest)
    else if c.toNat < 0x20 then none
    else if c == '\\' then do
      let (e, rest) ← escape1? rest
      stringTail (e :: acc) fuel rest
    else stringTail (some c :: acc) fuel rest

def ofText : Option String → Json
  | some text => .string text
  | none => .unreadable

def ofMembers (members : List (Option String × Json)) : Json :=
  match members.mapM fun m => m.1.map (·, m.2) with
  | some members => .object members
  | none => .unreadable

def wholeDigits? (cs : List Char) : Option (List Char × List Char) :=
  let digits := cs.takeWhile Char.isDigit
  let rest := cs.dropWhile Char.isDigit
  match digits with
  | [] => none
  | ['0'] => some (digits, rest)
  | '0' :: _ => none
  | _ => some (digits, rest)

def someDigits? (cs : List Char) : Option (List Char × List Char) :=
  let digits := cs.takeWhile Char.isDigit
  if digits.isEmpty then none else some (digits, cs.dropWhile Char.isDigit)

def fraction? : List Char → Option (List Char × List Char)
  | '.' :: cs => (someDigits? cs).map fun (digits, rest) => ('.' :: digits, rest)
  | cs => some ([], cs)

def power? : List Char → Option (List Char × List Char)
  | [] => some ([], [])
  | mark :: cs =>
    if mark == 'e' || mark == 'E' then
      let (sign, cs) := match cs with
        | '+' :: more => (['+'], more)
        | '-' :: more => (['-'], more)
        | _ => ([], cs)
      (someDigits? cs).map fun (digits, rest) => (mark :: sign ++ digits, rest)
    else some ([], mark :: cs)

def number? (cs : List Char) : Option (Json × List Char) := do
  let (sign, cs) := match cs with
    | '-' :: more => (['-'], more)
    | _ => ([], cs)
  let (whole, cs) ← wholeDigits? cs
  let (fraction, cs) ← fraction? cs
  let (power, cs) ← power? cs
  return (.number (String.ofList (sign ++ whole ++ fraction ++ power)), cs)

mutual

def value? : Nat → List Char → Option (Json × List Char)
  | 0, _ => none
  | fuel + 1, cs =>
    match cs with
    | 'n' :: 'u' :: 'l' :: 'l' :: rest => some (.null, rest)
    | 't' :: 'r' :: 'u' :: 'e' :: rest => some (.bool true, rest)
    | 'f' :: 'a' :: 'l' :: 's' :: 'e' :: rest => some (.bool false, rest)
    | '"' :: rest => (stringTail [] (rest.length + 1) rest).map fun (s, rest) => (ofText s, rest)
    | '[' :: rest =>
      match skipBlanks rest with
      | ']' :: rest => some (.array [], rest)
      | rest => (items? fuel [] rest).map fun (items, rest) => (.array items, rest)
    | '\x7b' :: rest =>
      match skipBlanks rest with
      | '\x7d' :: rest => some (.object [], rest)
      | rest => (members? fuel [] rest).map fun (members, rest) => (ofMembers members, rest)
    | _ => number? cs

def items? : Nat → List Json → List Char → Option (List Json × List Char)
  | 0, _, _ => none
  | fuel + 1, acc, cs => do
    let (item, rest) ← value? fuel cs
    match skipBlanks rest with
    | ']' :: rest => return ((item :: acc).reverse, rest)
    | ',' :: rest => items? fuel (item :: acc) (skipBlanks rest)
    | _ => none

def members? : Nat → List (Option String × Json) → List Char →
    Option (List (Option String × Json) × List Char)
  | 0, _, _ => none
  | fuel + 1, acc, cs => do
    let '"' :: rest := cs | none
    let (key, rest) ← stringTail [] (rest.length + 1) rest
    let ':' :: rest := skipBlanks rest | none
    let (value, rest) ← value? fuel (skipBlanks rest)
    match skipBlanks rest with
    | '\x7d' :: rest => return (((key, value) :: acc).reverse, rest)
    | ',' :: rest => members? fuel ((key, value) :: acc) (skipBlanks rest)
    | _ => none

end

def parse? (text : String) : Option Json := do
  let cs := text.toList
  let (value, rest) ← value? (2 * cs.length + 2) (skipBlanks cs)
  if (skipBlanks rest).isEmpty then some value else none

end ReversibleSynthesis.Json
