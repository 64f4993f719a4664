import ReversibleSynthesis.CommandLine.Job

namespace ReversibleSynthesis.CommandLine

inductive Stop where
  | usage
  | version
  | help
  deriving DecidableEq, Repr

inductive Setting where
  | format
  | output
  | inverse
  | kind
  | vars
  | verbose
  | help
  deriving DecidableEq, Repr

namespace Setting

def long : Setting → String
  | .format => "format"
  | .output => "output"
  | .inverse => "inverse"
  | .kind => "kind"
  | .vars => "vars"
  | .verbose => "verbose"
  | .help => "help"

def short? : Setting → Option Char
  | .format => some 'f'
  | .output => some 'o'
  | .inverse => none
  | .kind => some 'k'
  | .vars => none
  | .verbose => some 'v'
  | .help => some 'h'

def takesValue : Setting → Bool
  | .format => true
  | .output => true
  | .kind => true
  | .vars => true
  | _ => false

end Setting

inductive Operands where
  | none
  | one
  | texts
  | numbers
  deriving DecidableEq, Repr

inductive Subcommand where
  | parity
  | oracle
  | diagonal
  | dbs
  | tbs
  | lhrs
  | version
  deriving DecidableEq, Repr

namespace Subcommand

def all : List Subcommand := [.parity, .oracle, .diagonal, .dbs, .tbs, .lhrs, .version]

def name : Subcommand → String
  | .parity => "parity"
  | .oracle => "oracle"
  | .diagonal => "diagonal"
  | .dbs => "dbs"
  | .tbs => "tbs"
  | .lhrs => "lhrs"
  | .version => "version"

def ofName? (name : String) : Option Subcommand := all.find? fun s => s.name == name

def outputSettings : List Setting := [.format, .output, .inverse, .verbose, .help]

def settings : Subcommand → List Setting
  | .oracle => .kind :: .vars :: outputSettings
  | .dbs => .kind :: outputSettings
  | .version => [.verbose, .help]
  | _ => outputSettings

def operands : Subcommand → Operands
  | .parity => .texts
  | .oracle => .one
  | .diagonal => .texts
  | .dbs => .numbers
  | .tbs => .numbers
  | .lhrs => .one
  | .version => .none

def hyphenOperands (s : Subcommand) : Bool := s.operands == .texts

def longSetting? (s : Subcommand) (name : String) : Option Setting :=
  s.settings.find? fun o => o.long == name

def shortSetting? (s : Subcommand) (c : Char) : Option Setting :=
  s.settings.find? fun o => o.short? == some c

end Subcommand

def number32? (text : String) : Option Nat :=
  let (negative, digits) := match text.toList with
    | '-' :: cs => (true, cs)
    | '+' :: cs => (false, cs)
    | cs => (false, cs)
  let n := Decimal.digitsValue digits
  if !digits.isEmpty && digits.all Char.isDigit && decide (n < Nat.pow 2 32) && (!negative || n == 0) then
    some n
  else none

structure Options where
  format? : Option OutputFormat
  output? : Option String
  inverse : Bool
  kind? : Option Strategy
  vars? : Option Nat
  deriving DecidableEq, Repr

namespace Options

def empty : Options := ⟨none, none, false, none, none⟩

def once {β : Type} : Option β → Option β → Option β
  | none, value? => value?
  | some _, _ => none

def set? (o : Options) (value : String) : Setting → Option Options
  | .format =>
      (once o.format? (OutputFormat.ofName? value)).map fun f => { o with format? := some f }
  | .output => (once o.output? (some value)).map fun p => { o with output? := some p }
  | .inverse => if o.inverse then none else some { o with inverse := true }
  | .kind => (once o.kind? (Strategy.ofName? value)).map fun k => { o with kind? := some k }
  | .vars => (once o.vars? (number32? value)).map fun n => { o with vars? := some n }
  | .verbose => some o
  | .help => none

end Options

structure Collected where
  options : Options
  operands : List String
  pending? : Option Setting
  operandsOnly : Bool
  deriving DecidableEq, Repr

namespace Collected

def empty : Collected := ⟨.empty, [], none, false⟩

def give (c : Collected) (o : Setting) (value : String) : Except Stop Collected :=
  if o = .help then .error .help
  else
    match c.options.set? value o with
    | some options => .ok { c with options := options, pending? := none }
    | none => .error .usage

def takeOperand (s : Subcommand) (c : Collected) (word : String) : Except Stop Collected :=
  let fits := match s.operands with
    | .none => false
    | .one => c.operands.isEmpty
    | .texts => true
    | .numbers => (number32? word).isSome
  if fits then
    .ok { c with
      operands := c.operands ++ [word], operandsOnly := c.operandsOnly || s.hyphenOperands }
  else .error .usage

def takeWord (s : Subcommand) (c : Collected) (word : String) : Except Stop Collected :=
  match c.pending? with
  | some o => c.give o word
  | none => c.takeOperand s word

def takeLong (s : Subcommand) (c : Collected) (word : String) (body : List Char) :
    Except Stop Collected :=
  let name := body.takeWhile (· != '=')
  let value? := match body.drop name.length with
    | _ :: value => some (String.ofList value)
    | [] => none
  match s.longSetting? (String.ofList name), value? with
  | none, _ => if s.hyphenOperands then c.takeWord s word else .error .usage
  | some o, some value =>
      if c.pending?.isSome ∨ !o.takesValue then .error .usage else c.give o value
  | some o, none =>
      if c.pending?.isSome then .error .usage
      else if o.takesValue then .ok { c with pending? := some o }
      else c.give o ""

def takeShort (s : Subcommand) (c : Collected) : List Char → Except Stop Collected
  | [] => .ok c
  | mark :: rest =>
    match s.shortSetting? mark with
    | none => .error .usage
    | some o =>
      if o.takesValue then
        match rest with
        | [] => .ok { c with pending? := some o }
        | '=' :: value => c.give o (String.ofList value)
        | value => c.give o (String.ofList value)
      else do takeShort s (← c.give o "") rest

def step (s : Subcommand) (c : Collected) (word : String) : Except Stop Collected :=
  if c.operandsOnly then if c.pending?.isSome then .error .usage else c.takeOperand s word
  else
    match word.toList with
    | ['-', '-'] => .ok { c with operandsOnly := true }
    | '-' :: '-' :: body => c.takeLong s word body
    | '-' :: mark :: marks =>
      if s.hyphenOperands && (mark :: marks).any (fun m => (s.shortSetting? m).isNone) then
        c.takeWord s word
      else if c.pending?.isSome then .error .usage
      else c.takeShort s (mark :: marks)
    | _ => c.takeWord s word

def read (s : Subcommand) (words : List String) : Except Stop Collected := do
  let c ← words.foldlM (step s) empty
  if c.pending?.isSome then throw .usage
  if c.operands.isEmpty && s.operands != .none then throw .usage
  return c

end Collected

structure Defaults where
  format? : Option String
  kind? : Option String
  deriving DecidableEq, Repr

structure OutputOptions where
  format : OutputFormat
  path? : Option String
  inverse : Bool
  deriving DecidableEq, Repr

inductive Request where
  | synthesis (job : Job) (out : OutputOptions)
  | version
  deriving DecidableEq, Repr

def choose {β : Type} (ofName? : String → Option β) (first : β) (given? : Option β)
    (default? : Option String) : Except Stop β :=
  match given?, default? with
  | some b, _ => .ok b
  | none, none => .ok first
  | none, some name =>
    match ofName? name with
    | some b => .ok b
    | none => .error .usage

def outputOptions (defaults : Defaults) (o : Options) : Except Stop OutputOptions := do
  return {
    format := ← choose OutputFormat.ofName? .text o.format? defaults.format?
    path? := o.output?
    inverse := o.inverse }

def request (defaults : Defaults) (s : Subcommand) (c : Collected) : Except Stop Request := do
  let strategy := choose Strategy.ofName? .spectrum c.options.kind? defaults.kind?
  let out := outputOptions defaults c.options
  match s, c.operands with
  | .version, _ => return .version
  | .parity, terms => return .synthesis (.parity terms) (← out)
  | .diagonal, angles => return .synthesis (.diagonal angles) (← out)
  | .dbs, values =>
      return .synthesis (.decomposition (values.filterMap number32?) (← strategy)) (← out)
  | .tbs, values => return .synthesis (.transformation (values.filterMap number32?)) (← out)
  | .oracle, function :: _ =>
      return .synthesis (.oracle function c.options.vars? (← strategy)) (← out)
  | .lhrs, path :: _ => return .synthesis (.network path) (← out)
  | _, [] => throw .usage

def leadingFlags : List Char → Except Stop Unit
  | [] => .ok ()
  | 'v' :: rest => leadingFlags rest
  | 'V' :: _ => .error .version
  | 'h' :: _ => .error .help
  | _ => .error .usage

def helpStop : List String → Stop
  | [] => .help
  | [name] => if name == "help" || (Subcommand.ofName? name).isSome then .help else .usage
  | _ => .usage

def parse (defaults : Defaults) : List String → Except Stop Request
  | [] => .error .usage
  | "--verbose" :: rest => parse defaults rest
  | "--version" :: _ => .error .version
  | "--help" :: _ => .error .help
  | "help" :: names => .error (helpStop names)
  | word :: rest =>
    match word.toList with
    | '-' :: mark :: marks =>
      match leadingFlags (mark :: marks) with
      | .ok () => parse defaults rest
      | .error stop => .error stop
    | _ =>
      match Subcommand.ofName? word with
      | none => .error .usage
      | some s => do request defaults s (← Collected.read s rest)

end ReversibleSynthesis.CommandLine
