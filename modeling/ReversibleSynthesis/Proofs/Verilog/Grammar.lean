import ReversibleSynthesis.Verilog.Reader

namespace ReversibleSynthesis.Verilog

def BinaryOperator.token : BinaryOperator → Token
  | .or => .punctuation .pipe
  | .xor => .punctuation .caret
  | .and => .punctuation .ampersand

inductive Category where
  | chain (op : BinaryOperator)
  | unary
  | primary

def BinaryOperator.operand : BinaryOperator → Category
  | .or => .chain .xor
  | .xor => .chain .and
  | .and => .unary

def bitTexts : Bool → List String
  | false => ["1'b0", "1'B0"]
  | true => ["1'b1", "1'B1"]

inductive Derives : Category → List (Located Token) → Expression → Prop
  | operand {op : BinaryOperator} {ts : List (Located Token)} {e : Expression}
      (h : Derives op.operand ts e) : Derives (.chain op) ts e
  | binary {op : BinaryOperator} {ts us : List (Located Token)} {left right : Expression}
      (hleft : Derives (.chain op) ts left) (line : Nat) (hright : Derives op.operand us right) :
      Derives (.chain op) (ts ++ ⟨line, op.token⟩ :: us) (.binary left op right)
  | primary {ts : List (Located Token)} {e : Expression} (h : Derives .primary ts e) :
      Derives .unary ts e
  | not (line : Nat) {ts : List (Located Token)} {e : Expression} (h : Derives .unary ts e) :
      Derives .unary (⟨line, .punctuation .tilde⟩ :: ts) (.not e)
  | identifier (line : Nat) (name : String) :
      Derives .primary [⟨line, .identifier name⟩] (.identifier name)
  | integer (line : Nat) (value : Bool) :
      Derives .primary [⟨line, .integer value.toNat⟩] (.constant value)
  | sized (line : Nat) {text : String} {value : Bool} (h : text ∈ bitTexts value) :
      Derives .primary [⟨line, .sized text⟩] (.constant value)
  | paren (line line' : Nat) {ts : List (Located Token)} {e : Expression}
      (h : Derives (.chain .or) ts e) :
      Derives .primary
        (⟨line, .punctuation .leftParen⟩ :: ts ++ [⟨line', .punctuation .rightParen⟩]) e

inductive NamesText : List (Located Token) → List String → Prop
  | one (line : Nat) (name : String) : NamesText [⟨line, .identifier name⟩] [name]
  | more {ts : List (Located Token)} {names : List String} (h : NamesText ts names)
      (line line' : Nat) (name : String) :
      NamesText (ts ++ [⟨line, .punctuation .comma⟩, ⟨line', .identifier name⟩]) (names ++ [name])

inductive PortsText : List (Located Token) → List String → Prop
  | absent : PortsText [] []
  | none (line line' : Nat) :
      PortsText [⟨line, .punctuation .leftParen⟩, ⟨line', .punctuation .rightParen⟩] []
  | listed (line line' : Nat) {ts : List (Located Token)} {names : List String}
      (h : NamesText ts names) :
      PortsText (⟨line, .punctuation .leftParen⟩ :: ts ++ [⟨line', .punctuation .rightParen⟩]) names

inductive Item where
  | declaration (kind : DeclarationKind) (names : List String)
  | assignment (a : Assign)

def Item.declared (kind : DeclarationKind) : Item → List String
  | .declaration kind' names => if kind' = kind then names else []
  | .assignment _ => []

def Item.assigned : Item → List Assign
  | .declaration _ _ => []
  | .assignment a => [a]

def DeclarationKind.keyword : DeclarationKind → Keyword
  | .input => .input
  | .output => .output
  | .wire => .wire

inductive ItemText : List (Located Token) → Item → Prop
  | declaration (line line' : Nat) (kind : DeclarationKind) {ts : List (Located Token)}
      {names : List String} (h : NamesText ts names) :
      ItemText (⟨line, .keyword kind.keyword⟩ :: ts ++ [⟨line', .punctuation .semicolon⟩])
        (.declaration kind names)
  | assignment (line line₁ line₂ line₃ : Nat) (target : String) {ts : List (Located Token)}
      {e : Expression} (h : Derives (.chain .or) ts e) :
      ItemText (⟨line, .keyword .assign⟩ :: ⟨line₁, .identifier target⟩ ::
          ⟨line₂, .punctuation .equals⟩ :: ts ++ [⟨line₃, .punctuation .semicolon⟩])
        (.assignment ⟨target, e, line⟩)

inductive ItemsText : List (Located Token) → List Item → Prop
  | nil : ItemsText [] []
  | concat {ts us : List (Located Token)} {items : List Item} {item : Item}
      (h : ItemsText ts items) (hitem : ItemText us item) : ItemsText (ts ++ us) (items ++ [item])

def Module.ofItems (name : String) (ports : List String) (items : List Item) : Module where
  name := name
  ports := ports
  inputs := items.flatMap (Item.declared .input)
  outputs := items.flatMap (Item.declared .output)
  wires := items.flatMap (Item.declared .wire)
  assigns := items.flatMap Item.assigned

section OfItems

variable (name : String) (ports : List String) (items : List Item)

theorem Module.ofItems_declaration (kind : DeclarationKind) (names : List String) :
    (ofItems name ports items).declare names kind =
      ofItems name ports (items ++ [.declaration kind names]) := by
  cases kind <;> simp [ofItems, declare, Item.declared, Item.assigned]

theorem Module.ofItems_assignment (a : Assign) :
    { ofItems name ports items with assigns := (ofItems name ports items).assigns ++ [a] } =
      ofItems name ports (items ++ [.assignment a]) := by
  simp [ofItems, Item.declared, Item.assigned]

end OfItems

inductive HeadText : List (Located Token) → String → Prop
  | intro (line line' : Nat) (name : String) :
      HeadText [⟨line, .keyword .startModule⟩, ⟨line', .identifier name⟩] name

inductive BodyText : List (Located Token) → Module → Prop
  | intro {hs ps ts : List (Located Token)} {name : String} {ports : List String}
      {items : List Item} (hhead : HeadText hs name) (hports : PortsText ps ports) (line : Nat)
      (hitems : ItemsText ts items) :
      BodyText (hs ++ ps ++ ⟨line, .punctuation .semicolon⟩ :: ts) (.ofItems name ports items)

inductive ModuleText : List (Located Token) → Module → Prop
  | intro {ts : List (Located Token)} {m : Module} (h : BodyText ts m) (line : Nat) :
      ModuleText (ts ++ [⟨line, .keyword .endModule⟩]) m

section BodyText

variable {ts us : List (Located Token)} {m : Module}

theorem BodyText.declaration (h : BodyText ts m) {kind : DeclarationKind} {names : List String}
    (hitem : ItemText us (.declaration kind names)) :
    BodyText (ts ++ us) (m.declare names kind) := by
  cases h with
  | intro hhead hports line hitems =>
    rw [Module.ofItems_declaration, List.append_assoc, List.cons_append]
    exact .intro hhead hports line (hitems.concat hitem)

theorem BodyText.assignment (h : BodyText ts m) {a : Assign} (hitem : ItemText us (.assignment a)) :
    BodyText (ts ++ us) { m with assigns := m.assigns ++ [a] } := by
  cases h with
  | intro hhead hports line hitems =>
    rw [Module.ofItems_assignment, List.append_assoc, List.cons_append]
    exact .intro hhead hports line (hitems.concat hitem)

end BodyText

end ReversibleSynthesis.Verilog
