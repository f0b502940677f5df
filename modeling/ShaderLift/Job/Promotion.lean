import ShaderLift.Job.Basic
import ShaderLift.Tree.ParentIndex
import ShaderLift.Tree.UniformArray

/-!
Promoting literals to uniforms. A promotion moves the value of one literal into the uniform array
of its type, declares the array at its new length in every stage, and puts an expression that reads
the element in the place of the literal.
-/

namespace ShaderLift

structure Promotion where
  stage : Stage
  node : NodeId
  value : Scalar
  /-- The number of steps from the function's declaration down to the literal. -/
  depth : Nat
  deriving DecidableEq, Repr

def Promotion.arrayName (p : Promotion) : String := p.value.type.arrayName

def Promotion.describe (p : Promotion) : String :=
  p.stage.extension ++ ": literal " ++ String.ofList p.value.text ++ " at " ++
    String.ofList p.node.text ++ " -> " ++ p.arrayName

def Slot.isArraySize : Slot → Bool
  | arraySize _ => true
  | paramArraySize _ => true
  | memberArraySize _ => true
  | _ => false

/-- An element of one of the literal arrays, at a literal position. -/
def Expr.readsLiteralArray : Expr → Bool
  | index _ (name _ n) position =>
    (n = ScalarType.int.arrayName || n = ScalarType.float.arrayName) && position.literal?.isSome
  | _ => false

/-- Literals stay where they are inside declarations of constants, and inside what reads a literal
array already. -/
def Node.isSealed : Node → Bool
  | expression e => e.readsLiteralArray
  | statement (.declare _ vars) => vars.hasQualifier .const
  | _ => false

/-- Array sizes have to be literals, so there is no way into them. -/
def Node.openChildren (n : Node) : List Node :=
  if n.isSealed then [] else (n.children.filter fun c => !c.1.isArraySize).map Prod.snd

def Node.literal? : Node → Option (NodeId × Scalar)
  | expression (.literal id v) => (Scalar.ofLiteral? v).map fun x => (id, x)
  | _ => none

def Node.promotionsFuel (stage : Stage) : Nat → Nat → Node → List Promotion
  | 0, _, _ => []
  | fuel + 1, depth, n =>
    (n.literal?.map fun (id, x) => ⟨stage, id, x, depth⟩).toList ++
      n.openChildren.flatMap (promotionsFuel stage fuel (depth + 1))

/-- The literals below a node, in the order of the source. -/
def Node.promotions (stage : Stage) (n : Node) : List Promotion :=
  n.promotionsFuel stage n.size 0

def Declaration.hasBody : Declaration → Bool
  | function _ f => f.body.isSome
  | _ => false

def Shader.promotions (stage : Stage) (s : Shader) : List Promotion :=
  (s.declarations.filter Declaration.hasBody).flatMap fun d =>
    (Node.declaration d).promotions stage

namespace Job

/-- Every literal of the job that can be promoted, by stage and then in the order of the source. -/
def promotions (job : Job) : List Promotion :=
  job.stages.flatMap fun (stage, shader) => shader.promotions stage

/-- Makes sure that the metadata has the array of a type. -/
def reserveArray (job : Job) (type : ScalarType) : Except Fault Unit × Job :=
  let (outcome, metadata) := job.metadata.reserve type.arrayName type
  (outcome, { job with metadata })

/-- Makes sure that the metadata has the arrays of all promotions, up to the first that fails. -/
def reserveArrays (job : Job) : List Promotion → Except Fault Unit × Job
  | [] => (.ok (), job)
  | p :: rest =>
    match job.reserveArray p.value.type with
    | (.error e, job) => (.error e, job)
    | (.ok (), job) => job.reserveArrays rest

/-- The promotions of a job, once their arrays are in the metadata. -/
def findPromotions (job : Job) : Except Fault (List Promotion) × Job :=
  let found := job.promotions
  match job.reserveArrays found with
  | (.error e, job) => (.error e, job)
  | (.ok (), job) => (.ok found, job)

/-- A promotion of any node, with the array for its value put into the metadata. -/
def newPromotion (job : Job) (stage : Stage) (node : NodeId) (literal : Literal) (depth : Nat) :
    Except Fault Promotion × Job :=
  match Scalar.ofLiteral? literal with
  | none => (.error (.unsupportedLiteral node literal), job)
  | some value =>
    match job.reserveArray value.type with
    | (.error e, job) => (.error e, job)
    | (.ok (), job) => (.ok ⟨stage, node, value, depth⟩, job)

/-- Declares an array at a length in a shader, and nowhere else there. -/
def redeclare (name : String) (type : ScalarType) (length : Nat) (s : Shader) : Numbered Shader :=
  return (s.removeUniform name).addDeclaration (← arrayDeclaration name type length)

def redeclareAll (name : String) (type : ScalarType) (length : Nat)
    (stages : List (Stage × Shader)) : Numbered (List (Stage × Shader)) :=
  stages.mapM fun (stage, s) => return (stage, ← redeclare name type length s)

/-- Puts an expression in the place of a node of one stage. -/
def replaceNode (job : Job) (stage : Stage) (node : NodeId) (new : Expr) : Except Fault Unit × Job :=
  match job.shader? stage with
  | none => (.error (.nodeNotFound node), job)
  | some shader =>
    let (outcome, shader) := (ParentIndex.ofShader shader).replace shader node new
    (outcome.map fun _ => (), { job with stages := setStage stage shader job.stages })

/-- Whether a promotion finds an expression in the place it names. -/
def checkPlace (job : Job) (p : Promotion) : Except Fault Unit :=
  match job.shader? p.stage with
  | none => .error (.nodeNotFound p.node)
  | some shader =>
    if ((ParentIndex.ofShader shader).link? p.node).isNone then .error (.nodeNotFound p.node)
    else if (shader.findExpr? p.node).isNone then .error (.notAnExpression p.node)
    else .ok ()

/-- Interns a value and declares its array at the new length. Gives the value's index. -/
def declareValue (job : Job) (value : Scalar) : Except Fault Nat × Job :=
  let name := value.type.arrayName
  match job.metadata.intern name value with
  | (.error e, metadata) => (.error e, { job with metadata })
  | (.ok position, metadata) =>
    match metadata.contents name with
    | .error e => (.error e, { job with metadata })
    | .ok contents =>
      let (stages, ids) := redeclareAll name value.type contents.values.length job.stages job.ids
      (.ok position, ⟨stages, metadata, ids⟩)

/-- Applies a promotion. With an error comes the job as far as it was changed. -/
def apply (job : Job) (p : Promotion) : Except Fault Unit × Job :=
  match job.checkPlace p with
  | .error e => (.error e, job)
  | .ok () =>
    match job.declareValue p.value with
    | (.error e, job) => (.error e, job)
    | (.ok position, job) =>
      let (element, ids) := elementExpr p.arrayName position job.ids
      replaceNode { job with ids } p.stage p.node element

/-- How far a list of promotions was applied. -/
structure Progress where
  applied : Nat
  /-- The promotion that failed, after which no other is tried. -/
  failure : Option (Promotion × Fault)
  job : Job

def applyAll (job : Job) : List Promotion → Progress
  | [] => ⟨0, none, job⟩
  | p :: rest =>
    match job.apply p with
    | (.error e, job) => ⟨0, some (p, e), job⟩
    | (.ok (), job) =>
      let progress := job.applyAll rest
      { progress with applied := progress.applied + 1 }

end Job
end ShaderLift
