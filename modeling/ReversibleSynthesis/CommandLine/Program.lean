import ReversibleSynthesis.CommandLine.Arguments

namespace ReversibleSynthesis.CommandLine

structure Environment where
  defaults : Defaults
  read : ReadFile

inductive Ending where
  | print (text : String)
  | write (path text success : String)
  | fail (message : String)
  | badUsage
  deriving DecidableEq, Repr

structure Plan where
  notes : List String
  ending : Ending
  deriving DecidableEq, Repr

def versionLine : String := "revkit 0.3.0\n"

def aboutText : String :=
  "revkit v0.3.0 - logic-to-quantum-circuit synthesis\n" ++
  "\n" ++
  "Components:\n" ++
  "  revkit-ir       Reversible and phase gate netlists\n" ++
  "  revkit-logic    Truth tables, permutations and logic networks\n" ++
  "  revkit-verilog  Structural Verilog reader\n" ++
  "  revkit-synth    Synthesis algorithms\n" ++
  "  revkit-cli      Command-line interface\n" ++
  "\n" ++
  "Repository: https://github.com/msoeken/revkit\n" ++
  "License:    MIT\n"

def helpText : String :=
  "Usage: revkit [-v]... <parity|oracle|diagonal|dbs|tbs|lhrs|version> ...\n"

def successLine (n : Netlist Float) (path : String) : String :=
  s!"✓ {n.numQubits} qubits, {n.numGates} gates written to {path}"

def writeFailure (path : String) (e : FileError) : String :=
  Failure.text ["Failed to write file: " ++ path, e.message]

def Request.plan (env : Environment) : Request → Plan
  | .version => ⟨[], .print aboutText⟩
  | .synthesis job out =>
    let attempt := job.run env.read
    match attempt.result with
    | .error e => ⟨attempt.notes, .fail e.text⟩
    | .ok product =>
      let product := if out.inverse then product.inverse else product
      let text := product.render out.format
      ⟨attempt.notes,
        match out.path? with
        | some path => .write path text (successLine product.netlist path)
        | none => .print text⟩

def plan (env : Environment) (words : List String) : Plan :=
  match parse env.defaults words with
  | .ok request => request.plan env
  | .error .version => ⟨[], .print versionLine⟩
  | .error .help => ⟨[], .print helpText⟩
  | .error .usage => ⟨[], .badUsage⟩

structure Outcome where
  exitCode : Nat
  stdout : String
  stderr : String
  written? : Option (String × String)
  deriving DecidableEq, Repr

def lines (ls : List String) : String := String.join (ls.map (· ++ "\n"))

def errorLine (message : String) : String := "Error: " ++ message

def Plan.outcome (write : String → Except FileError Unit) (p : Plan) : Outcome :=
  match p.ending with
  | .print text => ⟨0, text, lines p.notes, none⟩
  | .fail message => ⟨1, "", lines (p.notes ++ [errorLine message]), none⟩
  | .badUsage => ⟨2, "", helpText, none⟩
  | .write path text success =>
    match write path with
    | .ok () => ⟨0, "", lines (p.notes ++ [success]), some (path, text)⟩
    | .error e => ⟨1, "", lines (p.notes ++ [errorLine (writeFailure path e)]), none⟩

end ReversibleSynthesis.CommandLine
