import ReversibleSynthesis.Decimal.Literal

namespace ReversibleSynthesis.Verilog

inductive Keyword where
  | startModule
  | endModule
  | input
  | output
  | wire
  | assign
  deriving DecidableEq, Repr

def Keyword.text : Keyword → String
  | .startModule => "module"
  | .endModule => "endmodule"
  | .input => "input"
  | .output => "output"
  | .wire => "wire"
  | .assign => "assign"

def Keyword.all : List Keyword := [.startModule, .endModule, .input, .output, .wire, .assign]

def Keyword.ofText? (text : String) : Option Keyword := all.find? fun k => k.text == text

inductive Punctuation where
  | tilde
  | ampersand
  | pipe
  | caret
  | equals
  | leftParen
  | rightParen
  | leftBracket
  | rightBracket
  | colon
  | semicolon
  | comma
  deriving DecidableEq, Repr

def Punctuation.char : Punctuation → Char
  | .tilde => '~'
  | .ampersand => '&'
  | .pipe => '|'
  | .caret => '^'
  | .equals => '='
  | .leftParen => '('
  | .rightParen => ')'
  | .leftBracket => '['
  | .rightBracket => ']'
  | .colon => ':'
  | .semicolon => ';'
  | .comma => ','

def Punctuation.all : List Punctuation :=
  [.tilde, .ampersand, .pipe, .caret, .equals, .leftParen, .rightParen, .leftBracket,
    .rightBracket, .colon, .semicolon, .comma]

def Punctuation.ofChar? (c : Char) : Option Punctuation := all.find? fun p => p.char == c

inductive Token where
  | keyword (k : Keyword)
  | punctuation (p : Punctuation)
  | identifier (name : String)
  | integer (value : Nat)
  | sized (text : String)
  deriving DecidableEq, Repr

def Token.text : Token → String
  | .keyword k => k.text
  | .punctuation p => p.char.toString
  | .identifier name => name
  | .integer value => toString value
  | .sized text => text

inductive Lexeme where
  | blank
  | token (t : Token)
  | invalid (text : String)
  deriving DecidableEq, Repr

def isBlank (c : Char) : Bool :=
  c == ' ' || c == '\t' || c == '\r' || c == '\n' || c == '\x0c'

def isNameStart (c : Char) : Bool := c.isAlpha || c == '_'

def isNameChar (c : Char) : Bool := isNameStart c || c.isDigit || c == '$'

def isBinaryDigit (c : Char) : Bool := c == '0' || c == '1'

def commentLength? : List Char → Option Nat
  | [] => none
  | '*' :: '/' :: _ => some 2
  | _ :: cs => (commentLength? cs).map (· + 1)

def sizedTail? : List Char → Option (List Char)
  | '\x27' :: base :: cs =>
      let digits := cs.takeWhile isBinaryDigit
      if (base == 'b' || base == 'B') && !digits.isEmpty then some ('\x27' :: base :: digits)
      else none
  | _ => none

def integerLexeme (digits : List Char) : Lexeme :=
  let value := Decimal.digitsValue digits
  if value < Nat.pow 2 64 then .token (.integer value) else .invalid (String.ofList digits)

def wordLexeme (name : String) : Lexeme :=
  match Keyword.ofText? name with
  | some k => .token (.keyword k)
  | none => .token (.identifier name)

def numberLexeme (c : Char) (cs : List Char) : Lexeme × Nat :=
  let digits := cs.takeWhile Char.isDigit
  match sizedTail? (cs.drop digits.length) with
  | some tail => (.token (.sized (String.ofList (c :: digits ++ tail))), digits.length + tail.length)
  | none => (integerLexeme (c :: digits), digits.length)

def slashLexeme (cs : List Char) : Lexeme × Nat :=
  match cs with
  | '/' :: line => (.blank, 1 + (line.takeWhile (· != '\n')).length)
  | '*' :: body =>
    match commentLength? body with
    | some k => (.blank, 1 + k)
    | none => (.invalid (String.ofList ('/' :: cs)), cs.length)
  | _ => (.invalid "/", 0)

def firstLexeme (c : Char) (cs : List Char) : Lexeme × Nat :=
  if isBlank c then (.blank, 0)
  else if c == '/' then slashLexeme cs
  else if c.isDigit then numberLexeme c cs
  else if isNameStart c then
    let more := cs.takeWhile isNameChar
    (wordLexeme (String.ofList (c :: more)), more.length)
  else
    match Punctuation.ofChar? c with
    | some p => (.token (.punctuation p), 0)
    | none => (.invalid c.toString, 0)

structure Located (α : Type) where
  line : Nat
  value : α
  deriving DecidableEq, Repr

def lexemesFrom (line : Nat) : List Char → List (Located Lexeme)
  | [] => []
  | c :: cs =>
    let (lexeme, k) := firstLexeme c cs
    let line' := line + (c :: cs.take k).count '\n'
    ⟨line, lexeme⟩ :: lexemesFrom line' (cs.drop k)
termination_by cs => cs.length
decreasing_by simp only [List.length_cons, List.length_drop]; omega

abbrev Scanned := Except String Token

def Lexeme.scanned? : Lexeme → Option Scanned
  | .blank => none
  | .token t => some (.ok t)
  | .invalid text => some (.error text)

def scan (source : String) : List (Located Scanned) :=
  (lexemesFrom 1 source.toList).filterMap fun l => l.value.scanned?.map (⟨l.line, ·⟩)

end ReversibleSynthesis.Verilog
