import StackAssembler.CommandLine

/-! The program: reads a script, runs it, and prints or writes the text of its modules. -/
namespace StackAssembler.CommandLine

/-- Code 20 says that a path leads through a file that is no directory. -/
def fileFault : IO.Error → FileFault
  | .noFileOrDirectory .. => .notFound
  | .inappropriateType _ code _ => if code = 20 then .notDirectory else .directory
  | .permissionDenied .. => .denied
  | e => .other (toString e)

def readScript (path : String) : IO (Except FileFault String) := do
  try
    let bytes ← IO.FS.readBinFile path
    match String.fromUTF8? bytes with
    | some s => return .ok s
    | none => return .error .notText
  catch e => return .error (fileFault e)

def writeText (path text : String) : IO (Except FileFault Unit) := do
  try
    IO.FS.writeFile path text
    return .ok ()
  catch e => return .error (fileFault e)

def failWith (message : String) : IO UInt32 := do
  IO.eprintln (errorLine message)
  return 1

end StackAssembler.CommandLine

open StackAssembler.CommandLine in
def main (args : List String) : IO UInt32 := do
  match Options.ofArgs args with
  | .error stop =>
    match stop.text? with
    | some text =>
      IO.print text
      return 0
    | none =>
      IO.eprintln usageHint
      return 2
  | .ok options =>
    let p := plan options (← readScript options.input)
    for line in p.notices do
      IO.eprintln line
    match p.result with
    | .error message => failWith message
    | .ok text =>
      match options.output with
      | none =>
        IO.print text
        return 0
      | some path =>
        match afterWriting options path (← writeText path text) with
        | .error message => failWith message
        | .ok lines =>
          for line in lines do
            IO.eprintln line
          return 0
