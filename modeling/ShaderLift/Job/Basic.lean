import ShaderLift.Grammar.Shader
import ShaderLift.Job.Stage
import ShaderLift.Metadata.LiteralArray
import ShaderLift.Sha256
import ShaderLift.Tree.Text

/-!
A job: the shaders of a pipeline, at most one to a stage and in the order of the stages, and the
metadata they share. All nodes of all shaders draw their identities from one supply.
-/

namespace ShaderLift

structure Job where
  stages : List (Stage × Shader) := []
  metadata : Metadata := {}
  ids : IdSupply := {}

namespace Job

/-- Puts a shader in its place among the stages, instead of one that was there. -/
def putStage (stage : Stage) (shader : Shader) : List (Stage × Shader) → List (Stage × Shader)
  | [] => [(stage, shader)]
  | (s, t) :: rest =>
    if stage.rank < s.rank then (stage, shader) :: (s, t) :: rest
    else if stage = s then (stage, shader) :: rest
    else (s, t) :: putStage stage shader rest

/-- Exchanges the shader of a stage where it stands. -/
def setStage (stage : Stage) (shader : Shader) : List (Stage × Shader) → List (Stage × Shader)
  | [] => []
  | (s, t) :: rest =>
    if stage = s then (s, shader) :: rest else (s, t) :: setStage stage shader rest

/-- Reads a shader for a stage. With a refusal comes the job as it was left. -/
def addShader (job : Job) (stage : Stage) (source : String) : Except Rejection Unit × Job :=
  match Shader.read source job.ids with
  | (.ok shader, ids) => (.ok (), { job with stages := putStage stage shader job.stages, ids })
  | (.error r, ids) => (.error r, { job with ids })

def shader? (job : Job) (stage : Stage) : Option Shader := job.stages.lookup stage

/-- The metadata, then each stage's extension and source after zero characters. -/
def digestInput (job : Job) : List Char :=
  job.metadata.toJson.compact ++
    job.stages.flatMap fun (stage, shader) =>
      '\x00' :: stage.extension.toList ++ '\x00' :: shader.text

def fingerprint (job : Job) : String :=
  String.ofList (Sha256.digest (String.ofList job.digestInput).toUTF8.toList)

end Job
end ShaderLift
