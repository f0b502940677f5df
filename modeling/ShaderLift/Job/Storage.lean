import ShaderLift.Files.System
import ShaderLift.Job.Basic

/-!
A job as files: the metadata in one, and each stage's source in a file of the same name with the
stage's extension.
-/

namespace ShaderLift

/-- Why a job cannot be loaded or written. -/
inductive StorageError where
  | file (path : String) (cause : FileError)
  | metadata (path : String) (cause : Metadata.TextError)
  | source (path : String) (cause : Rejection)
  | noStages (path : String)

def Metadata.TextError.message : TextError → String
  | ended => "the text ends too early"
  | malformed => "the text is not JSON"
  | notAnObject => "the text is not an object"

/-- One message for every stretch that is no token, and one if the tokens spell no shader. -/
def Rejection.messages (r : Rejection) : List String :=
  r.lexErrors.map LexError.message ++ if r.malformed then ["the tokens spell no shader"] else []

def StorageError.message : StorageError → String
  | file path cause => path ++ ": " ++ cause.message
  | metadata path cause => path ++ ": malformed pipeline metadata: " ++ cause.message
  | source path cause => path ++ ": " ++ "; ".intercalate cause.messages
  | noStages path => path ++ ": no shader stages found next to the metadata file"

namespace Job

variable {m : Type → Type} [Monad m] (files : FileSystem m)

def readFile (path : String) : ExceptT StorageError m String := do
  match ← files.read path with
  | .ok text => return text
  | .error e => throw (.file path e)

def writeFile (path text : String) : ExceptT StorageError m Unit := do
  match ← files.write path text with
  | .ok () => return ()
  | .error e => throw (.file path e)

/-- Adds the shaders of those stages that have a file. -/
def loadStages (path : String) (job : Job) : List Stage → ExceptT StorageError m Job
  | [] => return job
  | stage :: rest => do
    let source := FileName.withExtension path stage.extension
    if ← files.exists? source then
      match job.addShader stage (← readFile files source) with
      | (.ok (), job) => loadStages path job rest
      | (.error r, _) => throw (.source source r)
    else loadStages path job rest

/-- Loads the job whose metadata are at the path. It has to have a stage. -/
def load (path : String) : ExceptT StorageError m Job := do
  match Metadata.ofText (← readFile files path) with
  | .error e => throw (.metadata path e)
  | .ok metadata =>
    let job ← loadStages files path ⟨[], metadata, {}⟩ Stage.all
    if job.stages.isEmpty then throw (.noStages path)
    return job

/-- The files of a job whose metadata are at the path. -/
def texts (job : Job) (path : String) : List (String × String) :=
  (path, job.metadata.pretty ++ "\n") ::
    job.stages.map fun (stage, shader) =>
      (FileName.withExtension path stage.extension, String.ofList shader.text)

/-- Writes the files in order, up to the first that cannot be written. -/
def write (job : Job) (path : String) : ExceptT StorageError m Unit :=
  (job.texts path).forM fun (path, text) => writeFile files path text

end Job
end ShaderLift
