import ReversibleSynthesis.Verilog.Error
import ReversibleSynthesis.Verilog.Module
import ReversibleSynthesis.Verilog.Token

namespace ReversibleSynthesis.Verilog

inductive Waiting where
  | not
  | binary (left : Expression) (op : BinaryOperator)
  | paren
  deriving DecidableEq, Repr

namespace Waiting

def reduce (level : Nat) : List Waiting → Expression → List Waiting × Expression
  | .binary left op :: rest, e =>
      if level ≤ op.precedence then reduce level rest (.binary left op e)
      else (.binary left op :: rest, e)
  | stack, e => (stack, e)

def negate : List Waiting → Expression → List Waiting × Expression
  | .not :: rest, e => negate rest (.not e)
  | stack, e => (stack, e)

def hasParen (stack : List Waiting) : Bool := stack.any (· == .paren)

end Waiting

inductive DeclarationKind where
  | input
  | output
  | wire
  deriving DecidableEq, Repr

inductive Place where
  | start
  | name
  | header
  | firstPort
  | nextPort
  | afterPort
  | afterPorts
  | item
  | declaration (kind : DeclarationKind) (names : List String)
  | afterDeclaration (kind : DeclarationKind) (names : List String)
  | target (line : Nat)
  | equals (line : Nat) (target : String)
  | operand (line : Nat) (target : String) (stack : List Waiting)
  | operator (line : Nat) (target : String) (stack : List Waiting) (value : Expression)
  | finished
  deriving DecidableEq, Repr

structure ReaderState where
  module : Module
  place : Place
  deriving DecidableEq, Repr

def ReaderState.initial : ReaderState := ⟨⟨"", [], [], [], [], []⟩, .start⟩

def Place.expected : Place → String
  | .start => Keyword.startModule.text
  | .name => "identifier"
  | .header => ";"
  | .firstPort => "identifier"
  | .nextPort => "identifier"
  | .afterPort => ")"
  | .afterPorts => ";"
  | .item => "module item"
  | .declaration _ _ => "identifier"
  | .afterDeclaration _ _ => ";"
  | .target _ => "identifier"
  | .equals _ _ => "="
  | .operand _ _ _ => "expression"
  | .operator _ _ stack _ => if Waiting.hasParen stack then ")" else ";"
  | .finished => ""

def Place.missing : Place → String
  | .item => "expected " ++ Keyword.endModule.text
  | .operand _ _ _ => "expression"
  | place => "expected " ++ place.expected

def Module.declare (m : Module) (names : List String) : DeclarationKind → Module
  | .input => { m with inputs := m.inputs ++ names }
  | .output => { m with outputs := m.outputs ++ names }
  | .wire => { m with wires := m.wires ++ names }

def Place.afterOperand (line : Nat) (target : String) (stack : List Waiting) (e : Expression) :
    Place :=
  let (stack, e) := Waiting.negate stack e
  .operator line target stack e

def sizedConstant? (text : String) : Option Bool :=
  match text.toList with
  | ['1', '\x27', _, '0'] => some false
  | ['1', '\x27', _, '1'] => some true
  | _ => none

def operatorOf? : Token → Option BinaryOperator
  | .punctuation .ampersand => some .and
  | .punctuation .pipe => some .or
  | .punctuation .caret => some .xor
  | _ => none

def readOperand (line : Nat) (target : String) (stack : List Waiting) (t : Located Token) :
    Except Error Place :=
  match t.value with
  | .punctuation .tilde => .ok (.operand line target (.not :: stack))
  | .punctuation .leftParen => .ok (.operand line target (.paren :: stack))
  | .identifier name => .ok (.afterOperand line target stack (.identifier name))
  | .integer 0 => .ok (.afterOperand line target stack (.constant false))
  | .integer 1 => .ok (.afterOperand line target stack (.constant true))
  | .integer value => .error (.unsupportedConstant (toString value))
  | .sized text =>
    match sizedConstant? text with
    | some value => .ok (.afterOperand line target stack (.constant value))
    | none => .error (.unsupportedConstant text)
  | other => .error (.unexpectedToken t.line "expression" other.text)

def readOperator (m : Module) (line : Nat) (target : String) (stack : List Waiting)
    (value : Expression) (t : Located Token) : Except Error ReaderState :=
  match operatorOf? t.value with
  | some op =>
    let (stack, left) := Waiting.reduce op.precedence stack value
    .ok ⟨m, .operand line target (.binary left op :: stack)⟩
  | none =>
    match Waiting.reduce 0 stack value, t.value with
    | (.paren :: rest, inner), .punctuation .rightParen =>
        .ok ⟨m, .afterOperand line target rest inner⟩
    | ([], expr), .punctuation .semicolon =>
        .ok ⟨{ m with assigns := m.assigns ++ [⟨target, expr, line⟩] }, .item⟩
    | _, other =>
        .error (.unexpectedToken t.line (Place.operator line target stack value).expected
          other.text)

def ReaderState.step (s : ReaderState) (t : Located Token) : Except Error ReaderState :=
  let m := s.module
  match s.place, t.value with
  | .finished, _ => .ok s
  | .start, .keyword .startModule => .ok ⟨m, .name⟩
  | .name, .identifier name => .ok ⟨{ m with name := name }, .header⟩
  | .header, .punctuation .leftParen => .ok ⟨m, .firstPort⟩
  | .header, .punctuation .semicolon => .ok ⟨m, .item⟩
  | .firstPort, .punctuation .rightParen => .ok ⟨m, .afterPorts⟩
  | .firstPort, .identifier name => .ok ⟨{ m with ports := m.ports ++ [name] }, .afterPort⟩
  | .nextPort, .identifier name => .ok ⟨{ m with ports := m.ports ++ [name] }, .afterPort⟩
  | .afterPort, .punctuation .comma => .ok ⟨m, .nextPort⟩
  | .afterPort, .punctuation .rightParen => .ok ⟨m, .afterPorts⟩
  | .afterPorts, .punctuation .semicolon => .ok ⟨m, .item⟩
  | .item, .keyword .endModule => .ok ⟨m, .finished⟩
  | .item, .keyword .input => .ok ⟨m, .declaration .input []⟩
  | .item, .keyword .output => .ok ⟨m, .declaration .output []⟩
  | .item, .keyword .wire => .ok ⟨m, .declaration .wire []⟩
  | .item, .keyword .assign => .ok ⟨m, .target t.line⟩
  | .declaration kind names, .identifier name => .ok ⟨m, .afterDeclaration kind (names ++ [name])⟩
  | .afterDeclaration kind names, .punctuation .comma => .ok ⟨m, .declaration kind names⟩
  | .afterDeclaration kind names, .punctuation .semicolon => .ok ⟨m.declare names kind, .item⟩
  | .target line, .identifier name => .ok ⟨m, .equals line name⟩
  | .equals line target, .punctuation .equals => .ok ⟨m, .operand line target []⟩
  | .operand line target stack, _ => (readOperand line target stack t).map (⟨m, ·⟩)
  | .operator line target stack value, _ => readOperator m line target stack value t
  | place, other => .error (.unexpectedToken t.line place.expected other.text)

def readModule (tokens : List (Located Token)) : Except Error Module := do
  let s ← tokens.foldlM ReaderState.step .initial
  match s.place with
  | .finished => return s.module
  | place => throw (.unexpectedEnd place.missing)

def tokens (source : String) : Except Error (List (Located Token)) :=
  (scan source).mapM fun l =>
    match l.value with
    | .ok t => .ok ⟨l.line, t⟩
    | .error text => .error (.lexical l.line text)

def parseModule (source : String) : Except Error Module := do
  readModule (← tokens source)

end ReversibleSynthesis.Verilog
