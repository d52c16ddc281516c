import StackAssembler.Script.Listing

/-! The command line: which script to run, what to show on the way, and where the text goes. -/
namespace StackAssembler.CommandLine
open Script

structure Options where
  input : String
  output : Option String
  dumpTokens : Bool
  dumpActions : Bool
  verbose : Bool
  deriving DecidableEq, Repr, Inhabited

/-- Why the words are not read to their end: they make no sense, or they ask about the program itself. -/
inductive Stop where
  | misuse | version | help
  deriving DecidableEq, Repr

/-- The options met so far. None may be given twice, and no path may be empty. -/
structure Draft where
  input : Option String := none
  output : Option String := none
  dumpTokens : Bool := false
  dumpActions : Bool := false
  verbose : Bool := false

namespace Draft

def withInput (d : Draft) (s : String) : Except Stop Draft :=
  if d.input.isSome || s.isEmpty then .error .misuse else .ok { d with input := some s }

def withOutput (d : Draft) (s : String) : Except Stop Draft :=
  if d.output.isSome || s.isEmpty then .error .misuse else .ok { d with output := some s }

def withTokens (d : Draft) : Except Stop Draft :=
  if d.dumpTokens then .error .misuse else .ok { d with dumpTokens := true }

def withActions (d : Draft) : Except Stop Draft :=
  if d.dumpActions then .error .misuse else .ok { d with dumpActions := true }

def withVerbose (d : Draft) : Except Stop Draft :=
  if d.verbose then .error .misuse else .ok { d with verbose := true }

/-- The options of a word such as `-vo`, and whether the next word is a value of the last one. -/
def cluster : List Char → Draft → Except Stop (Draft × Bool)
  | [], d => .ok (d, false)
  | 'v' :: cs, d => do cluster cs (← d.withVerbose)
  | 'V' :: _, _ => .error .version
  | 'h' :: _, _ => .error .help
  | ['o'], d => .ok (d, true)
  | 'o' :: '=' :: cs, d => do return (← d.withOutput (String.ofList cs), false)
  | 'o' :: cs, d => do return (← d.withOutput (String.ofList cs), false)
  | _, _ => .error .misuse

/-- The option of a word that starts with two dashes, and whether the next word is its value. -/
def long (w : String) (d : Draft) : Except Stop (Draft × Bool) :=
  match w with
  | "--dump-tokens" => do return (← d.withTokens, false)
  | "--dump-actions" => do return (← d.withActions, false)
  | "--verbose" => do return (← d.withVerbose, false)
  | "--version" => .error .version
  | "--help" => .error .help
  | "--output" => .ok (d, true)
  | _ =>
    match Text.cut w '=' false with
    | ("--output", path) => do return (← d.withOutput path, false)
    | _ => .error .misuse

/-- Whether a word is an option and so no value of another. -/
def isOption (s : String) : Bool :=
  match s.toList with
  | '-' :: _ :: _ => true
  | _ => false

/-- Read the words from left to right up to the first that stops this; `pending` is set when the next one is
the output path. -/
def read : List String → Bool → Draft → Except Stop Draft
  | [], pending, d => if pending then .error .misuse else .ok d
  | w :: ws, true, d => if isOption w then .error .misuse else do read ws false (← d.withOutput w)
  | w :: ws, false, d =>
    match w.toList with
    | ['-', '-'] => ws.foldlM withInput d
    | '-' :: '-' :: _ => do
      let (d, pending) ← long w d
      read ws pending d
    | '-' :: c :: cs => do
      let (d, pending) ← cluster (c :: cs) d
      read ws pending d
    | _ => do read ws false (← d.withInput w)

end Draft

/-- The options that some words ask for. There has to be an input path. -/
def Options.ofArgs (args : List String) : Except Stop Options := do
  let d ← Draft.read args false {}
  match d.input with
  | some input => return ⟨input, d.output, d.dumpTokens, d.dumpActions, d.verbose⟩
  | none => throw .misuse

/-- What is said last when the words make no sense. -/
def usageHint : String := "For more information, try '--help'."

def versionText : String := "sc 0.1.0\n"

def helpText : String :=
  "Build IR from stack-oriented action scripts\n\n" ++
  "Usage: sc [OPTIONS] <INPUT>\n\n" ++
  "Arguments:\n" ++
  "  <INPUT>  Input script\n\n" ++
  "Options:\n" ++
  "  -o, --output <OUTPUT>  Write the module text here instead of stdout\n" ++
  "      --dump-tokens      Dump tokens (for debugging)\n" ++
  "      --dump-actions     Dump each lowered action (for debugging)\n" ++
  "  -v, --verbose          Verbose output\n" ++
  "  -h, --help             Print help\n" ++
  "  -V, --version          Print version\n"

/-- What is printed instead of running a script, or none when the words make no sense. -/
def Stop.text? : Stop → Option String
  | misuse => none
  | version => some versionText
  | help => some helpText

/-- Why a file cannot be read or written. -/
inductive FileFault where
  | notFound
  | notText
  | directory
  | notDirectory
  | denied
  | other (text : String)
  deriving DecidableEq, Repr

def FileFault.message : FileFault → String
  | notFound => "No such file or directory (os error 2)"
  | notText => "stream did not contain valid UTF-8"
  | directory => "Is a directory (os error 21)"
  | notDirectory => "Not a directory (os error 20)"
  | denied => "Permission denied (os error 13)"
  | other text => text

/-- What a run shows and comes to. -/
structure Plan where
  /-- The lines for standard error. -/
  notices : List String
  /-- The text to be written, or what went wrong. -/
  result : Except String String

/-- The text of a run: its modules and a line for each final value. -/
def outputText (o : Output) : String :=
  o.moduleText ++ String.join (o.last.map fun v => "; last: " ++ v ++ "\n")

/-- Run a script that was read from the input file. -/
def plan (o : Options) (content : Except FileFault String) : Plan :=
  match content with
  | .error f => ⟨[], .error ("cannot read " ++ o.input ++ ": " ++ f.message)⟩
  | .ok source =>
    let greeting := if o.verbose then ["Running " ++ o.input] else []
    let tokenLines :=
      if o.dumpTokens then
        match tokens source with
        | .ok ts => tokenListing ts
        | .error _ => []
      else []
    let (outcome, progress) := run source o.dumpTokens
    let actionLines := if o.dumpActions then progress.directiveListing else []
    ⟨greeting ++ tokenLines ++ actionLines, (outcome.map outputText).mapError ScriptError.chain⟩

/-- What is said after the text was written to a file. -/
def afterWriting (o : Options) (path : String) (written : Except FileFault Unit) :
    Except String (List String) :=
  match written with
  | .error f => .error ("cannot write " ++ path ++ ": " ++ f.message)
  | .ok () => .ok (if o.verbose then ["Wrote " ++ path] else [])

/-- The last line about an error. -/
def errorLine (message : String) : String := "error: " ++ message

end StackAssembler.CommandLine
