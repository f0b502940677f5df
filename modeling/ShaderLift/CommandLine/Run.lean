import ShaderLift.CommandLine.Options
import ShaderLift.Job.Promotion
import ShaderLift.Job.Storage

/-!
The command: loads a job, promotes its literals, and prints or writes what is asked for.
-/

namespace ShaderLift.CommandLine

structure Outcome where
  exit : Nat
  output : String := ""
  messages : List String := []
  deriving DecidableEq, Repr

def failed (exit : Nat) (message : String) : Outcome :=
  { exit, messages := ["glsl-reduce: error: " ++ message] }

/-- Without a binding left the command is broken off. -/
def ofFault (fault : Fault) (context : String) : Outcome :=
  match fault with
  | .bindingsExhausted => { exit := 101, messages := [fault.message] }
  | _ => failed 1 (context ++ fault.message)

def version : String := "glsl-reduce 0.1.0\n"

def help : String :=
  "Promotes GLSL literals to uniform arrays in a shader job\n\n" ++
  "Usage: glsl-reduce [OPTIONS] <JOB>\n\n" ++
  "Arguments:\n" ++
  "  <JOB>  Shader job metadata file; stages are read from sibling .vert/.frag/.comp files\n\n" ++
  "Options:\n" ++
  "  -o, --output <OUTPUT>  Output metadata path for `--emit job`; " ++
  "stages are written next to it\n" ++
  "      --limit <LIMIT>    Apply at most this many opportunities\n" ++
  "      --stage <STAGE>    Only consider literals in this stage " ++
  "[possible values: vert, frag, comp]\n" ++
  "      --emit <EMIT>      What to print or write [default: glsl] " ++
  "[possible values: job, glsl, metadata, opportunities, info]\n" ++
  "      --verbose          Debug-level logging on stderr\n" ++
  "  -h, --help             Print help\n" ++
  "  -V, --version          Print version\n"

/-- The promotions that the options select. -/
def selected (options : Options) (found : List Promotion) : List Promotion :=
  match options.stage with
  | some stage => found.filter fun p => p.stage = stage
  | none => found

def promotionLine (p : Promotion) : String :=
  p.describe ++ "\tdepth " ++ String.ofList (Numeral.decimal p.depth) ++ "\n"

def sources (job : Job) : String :=
  String.join (job.stages.map fun (stage, shader) =>
    "// " ++ stage.extension ++ "\n" ++ String.ofList shader.text)

/-- The summary of a run, its fields sorted by name. -/
def summary (before : String) (found applied : Nat) (job : Job) : String :=
  let count (n : Nat) : Json := .number (.whole n)
  let fields : List (String × Json) :=
    [("applied", count applied), ("fingerprint_after", .string job.fingerprint),
      ("fingerprint_before", .string before), ("opportunities", count found),
      ("stages", count job.stages.length)]
  String.ofList (Json.object fields).compact ++ "\n"

section

variable {m : Type → Type} [Monad m] (files : FileSystem m)

/-- Prints or writes what is asked for, once the promotions are applied. -/
def emit (options : Options) (before : String) (found applied : Nat) (job : Job) : m Outcome := do
  let done (output : String) : Outcome :=
    { exit := 0, output,
      messages :=
        if options.verbose then
          ["glsl-reduce: applied " ++ String.ofList (Numeral.decimal applied) ++ " of " ++
            String.ofList (Numeral.decimal found) ++ " opportunities"]
        else [] }
  match options.emit with
  | .job =>
    match options.output with
    | none => return failed 2 "--emit job needs an output path (-o)"
    | some path =>
      match ← (job.write files path).run with
      | .ok () => return done ""
      | .error e => return failed 2 e.message
  | .glsl => return done (sources job)
  | .metadata => return done (job.metadata.pretty ++ "\n")
  | .info => return done (summary before found applied job)
  | .opportunities => return done ""

/-- Works on a loaded job. -/
def process (options : Options) (job : Job) : m Outcome := do
  match job.findPromotions with
  | (.error e, _) => return ofFault e ""
  | (.ok found, promoted) =>
    let chosen := selected options found
    if options.emit = .opportunities then
      return { exit := 0, output := String.join (chosen.map promotionLine) }
    let progress := promoted.applyAll (chosen.take (options.limit.getD chosen.length))
    match progress.failure with
    | some (p, e) => return ofFault e (p.describe ++ ": ")
    | none => emit files options job.fingerprint chosen.length progress.applied progress.job

def run (args : List String) : m Outcome := do
  match Invocation.ofArguments args with
  | .help => return { exit := 0, output := help }
  | .version => return { exit := 0, output := version }
  | .misuse => return { exit := 2, messages := ["error: invalid arguments", "", help] }
  | .run options =>
    match ← (Job.load files options.job).run with
    | .error e => return failed 2 e.message
    | .ok job => process files options job

end

end ShaderLift.CommandLine
