import ReversibleSynthesis.Angle.Notation
import ReversibleSynthesis.CommandLine.Report
import ReversibleSynthesis.Synthesis.Decomposition
import ReversibleSynthesis.Synthesis.Transformation

namespace ReversibleSynthesis.CommandLine

inductive Job where
  | parity (terms : List String)
  | oracle (function : String) (vars? : Option Nat) (strategy : Strategy)
  | diagonal (angles : List String)
  | decomposition (values : List Nat) (strategy : Strategy)
  | transformation (values : List Nat)
  | network (path : String)
  deriving DecidableEq, Repr

abbrev Failure := List String

def Failure.text (f : Failure) : String := ": ".intercalate f

structure Attempt where
  notes : List String
  result : Except Failure Product

abbrev ReadFile := String → Except FileError String

def announcement (what detail : String) : String := s!"→ Synthesizing {what} {detail}"

def parseTerm (text : String) : Except Failure (String × Float) :=
  let bits := text.toList.takeWhile (· != ':')
  match text.toList.drop bits.length with
  | _ :: angle => do
    let value ← (AngleNotation.parse (String.ofList angle)).mapError AngleNotation.Error.messages
    return (Text.trim (String.ofList bits), value)
  | [] => .error [s!"Expected BITS:ANGLE, got '{text}'"]

def parseFunction (text : String) : Option Nat → Except Failure TruthTable
  | some n => (TruthTable.ofHex n text).mapError fun e => [e.message]
  | none => (TruthTable.ofBinary text).mapError fun e => [e.message]

def plainProduct (result : Except SynthesisError (Netlist Float)) : Except Failure Product :=
  (result.map fun n => ⟨n, none⟩).mapError SynthesisError.messages

def attempt {β : Type} (arguments : Except Failure β) (note : β → String)
    (synthesize : β → Except SynthesisError (Netlist Float)) : Attempt :=
  match arguments with
  | .error e => ⟨[], .error e⟩
  | .ok b => ⟨[note b], plainProduct (synthesize b)⟩

def networkAttempt (read : ReadFile) (path : String) : Attempt :=
  let note := announcement "logic network" path
  match read path with
  | .error e =>
    if e.isMissing then ⟨[], .error [s!"File not found: {path}"]⟩
    else ⟨[note], .error (SynthesisError.unreadable path e).messages⟩
  | .ok source =>
    match synthesizeVerilog source with
    | .error e => ⟨[note], .error e.messages⟩
    | .ok (netlist, layout) => ⟨[note, layout.summary], .ok ⟨netlist, some layout⟩⟩

def Job.run (read : ReadFile) : Job → Attempt
  | .parity terms =>
      attempt (terms.mapM parseTerm)
        (fun terms => announcement "phase polynomial" s!"({terms.length} terms)") synthesizeParity
  | .oracle function vars? strategy =>
      attempt (parseFunction function vars?)
        (fun table => announcement "single-target gate"
          s!"over {table.numVars} variables with {strategy.name}")
        (fun table => synthesizeOracle table strategy)
  | .diagonal angles =>
      attempt (angles.mapM fun a => (AngleNotation.parse a).mapError AngleNotation.Error.messages)
        (fun angles => announcement "diagonal unitary" s!"({angles.length} angles)")
        synthesizeDiagonal
  | .decomposition values strategy =>
      attempt (.ok values)
        (fun values => announcement "permutation"
          s!"of {values.length} values (dbs, {strategy.name})")
        (fun values => synthesizeByDecomposition values strategy)
  | .transformation values =>
      attempt (.ok values)
        (fun values => announcement "permutation" s!"of {values.length} values (tbs)")
        synthesizeByTransformation
  | .network path => networkAttempt read path

end ReversibleSynthesis.CommandLine
