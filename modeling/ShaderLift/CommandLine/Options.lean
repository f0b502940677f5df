import ShaderLift.Job.Stage
import ShaderLift.Numeral.Digits

/-!
The arguments of the command. They are read from left to right, and the first that is wrong, or
that asks for help or the version, settles the matter.
-/

namespace ShaderLift.CommandLine

/-- What the command prints or writes. -/
inductive Emit where
  | job
  | glsl
  | metadata
  | opportunities
  | info
  deriving DecidableEq, Repr

def Emit.ofText? : String → Option Emit
  | "job" => some .job
  | "glsl" => some .glsl
  | "metadata" => some .metadata
  | "opportunities" => some .opportunities
  | "info" => some .info
  | _ => none

structure Options where
  job : String
  output : Option String
  limit : Option Nat
  stage : Option Stage
  emit : Emit
  verbose : Bool
  deriving DecidableEq, Repr

inductive Invocation where
  | run (options : Options)
  | help
  | version
  | misuse
  deriving DecidableEq, Repr

/-- The arguments read so far. -/
structure Draft where
  job : Option String := none
  output : Option String := none
  limit : Option Nat := none
  stage : Option Stage := none
  emit : Option Emit := none
  verbose : Bool := false

/-- A 64-bit number, which may have a plus sign. -/
def limit? (text : String) : Option Nat :=
  let digits := match text.toList with
    | '+' :: rest => rest
    | cs => cs
  let n := Numeral.value 10 digits
  if !digits.isEmpty && digits.all Char.isDigit && n < UInt64.size then some n else none

def path? (text : String) : Option String := if text.isEmpty then none else some text

namespace Draft

/-- Gives an option its value; an option is given once at most. -/
def option? (d : Draft) (name : String) (text : String) : Option Draft :=
  match name with
  | "output" => do
    if d.output.isSome then none
    return { d with output := some (← path? text) }
  | "limit" => do
    if d.limit.isSome then none
    return { d with limit := some (← limit? text) }
  | "stage" => do
    if d.stage.isSome then none
    return { d with stage := some (← Stage.ofExtension? text) }
  | "emit" => do
    if d.emit.isSome then none
    return { d with emit := some (← Emit.ofText? text) }
  | _ => none

def job? (d : Draft) (text : String) : Option Draft := do
  if d.job.isSome then none
  return { d with job := some (← path? text) }

def finish (d : Draft) : Invocation :=
  match d.job with
  | some job => .run ⟨job, d.output, d.limit, d.stage, d.emit.getD .glsl, d.verbose⟩
  | none => .misuse

end Draft

/-- What an argument looks like. -/
inductive Argument where
  | rest
  | help
  | version
  | verbose
  | option (name : String) (value : Option String)
  | plain (text : String)
  | unknown
  deriving DecidableEq, Repr

def longArgument (text : List Char) : Argument :=
  let name := String.ofList (text.takeWhile (· ≠ '='))
  let value := match text.dropWhile (· ≠ '=') with
    | _ :: value => some (String.ofList value)
    | [] => none
  match name, value with
  | "help", none => .help
  | "version", none => .version
  | "verbose", none => .verbose
  | "output", _ => .option name value
  | "limit", _ => .option name value
  | "stage", _ => .option name value
  | "emit", _ => .option name value
  | _, _ => .unknown

def Argument.ofText (text : String) : Argument :=
  match text.toList with
  | ['-', '-'] => .rest
  | '-' :: '-' :: long => longArgument long
  | ['-', 'o'] => .option "output" none
  | '-' :: 'o' :: '=' :: value => .option "output" (some (String.ofList value))
  | '-' :: 'o' :: value => .option "output" (some (String.ofList value))
  | '-' :: 'h' :: _ => .help
  | '-' :: 'V' :: _ => .version
  | '-' :: _ :: _ => .unknown
  | _ => .plain text

/-- The names after a double dash. -/
def plainArguments (d : Draft) : List String → Invocation
  | [] => d.finish
  | text :: rest =>
    match d.job? text with
    | some d => plainArguments d rest
    | none => .misuse

def arguments (d : Draft) : List String → Invocation
  | [] => d.finish
  | text :: rest =>
    match Argument.ofText text with
    | .rest => plainArguments d rest
    | .help => .help
    | .version => .version
    | .verbose => if d.verbose then .misuse else arguments { d with verbose := true } rest
    | .option name (some value) =>
      match d.option? name value with
      | some d => arguments d rest
      | none => .misuse
    | .option name none =>
      match rest with
      | value :: rest =>
        match Argument.ofText value with
        | .plain value =>
          match d.option? name value with
          | some d => arguments d rest
          | none => .misuse
        | _ => .misuse
      | [] => .misuse
    | .plain text =>
      match d.job? text with
      | some d => arguments d rest
      | none => .misuse
    | .unknown => .misuse

def Invocation.ofArguments (args : List String) : Invocation := arguments {} args

end ShaderLift.CommandLine
