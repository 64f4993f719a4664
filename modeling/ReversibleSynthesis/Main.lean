import ReversibleSynthesis.CommandLine.Program

open ReversibleSynthesis ReversibleSynthesis.CommandLine

def fileError : IO.Error → FileError
  | .inappropriateType _ code _ => if code == 20 then .notDirectory else .isDirectory
  | .invalidArgument _ code _ => if code == 36 then .nameTooLong else .notFound
  | .permissionDenied _ _ _ => .denied
  | .noFileOrDirectory _ _ _ => .notFound
  | .noSuchThing _ _ _ => .notFound
  | _ => .isDirectory

def readText (path : String) : IO (Except FileError String) := do
  try
    let bytes ← IO.FS.readBinFile path
    match String.fromUTF8? bytes with
    | some text => return .ok text
    | none => return .error .notText
  catch e => return .error (fileError e)

def writeText (path text : String) : IO (Except FileError Unit) := do
  try
    IO.FS.writeFile path text
    return .ok ()
  catch e => return .error (fileError e)

def inputPath? : Except Stop Request → Option String
  | .ok (.synthesis (.network path) _) => some path
  | _ => none

def main (words : List String) : IO UInt32 := do
  let defaults : Defaults := ⟨← IO.getEnv "REVKIT_FORMAT", ← IO.getEnv "REVKIT_STG_KIND"⟩
  let content ← match inputPath? (parse defaults words) with
    | some path => readText path
    | none => pure (.error .notFound)
  let p := plan ⟨defaults, fun _ => content⟩ words
  let written ← match p.ending with
    | .write path text _ => writeText path text
    | _ => pure (.ok ())
  let outcome := p.outcome fun _ => written
  (← IO.getStderr).putStr outcome.stderr
  (← IO.getStdout).putStr outcome.stdout
  return UInt32.ofNat outcome.exitCode
