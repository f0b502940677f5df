import ShaderLift.Tree.Stmt

/-!
A shader: the top-level declarations of one stage.
-/

namespace ShaderLift

structure BlockMember where
  type : QualifiedType
  name : String
  array : Option ArraySuffix
  deriving BEq, Repr

structure InterfaceBlock where
  qualifiers : List Qualifier
  name : String
  members : List BlockMember
  instanceName : Option String
  deriving BEq, Repr

structure Param where
  type : QualifiedType
  name : Option String
  array : Option ArraySuffix
  deriving BEq, Repr

/-- A function, or only its prototype where there is no body. -/
structure Function where
  returns : QualifiedType
  name : String
  params : List Param
  body : Option (List Stmt)
  deriving BEq, Repr

inductive Declaration where
  | directive (id : NodeId) (text : String)
  | precision (id : NodeId) (precision : Precision) (type : DataType)
  | globals (id : NodeId) (vars : Variables)
  | interfaceBlock (id : NodeId) (block : InterfaceBlock)
  | qualifiers (id : NodeId) (list : List Qualifier)
  | function (id : NodeId) (function : Function)
  deriving BEq, Repr

namespace Declaration

def id : Declaration → NodeId
  | directive id _ => id
  | precision id _ _ => id
  | globals id _ => id
  | interfaceBlock id _ => id
  | qualifiers id _ => id
  | function id _ => id

def withId (new : NodeId) : Declaration → Declaration
  | directive _ t => directive new t
  | precision _ p t => precision new p t
  | globals _ vars => globals new vars
  | interfaceBlock _ b => interfaceBlock new b
  | qualifiers _ list => qualifiers new list
  | function _ f => function new f

/-- Directives and default precisions, which stay in front of all that is added. -/
def isPreamble : Declaration → Bool
  | directive _ _ => true
  | precision _ _ _ => true
  | _ => false

end Declaration

structure Shader where
  declarations : List Declaration
  deriving BEq, Repr

namespace Shader

/-- Puts a declaration in front of the first one that is not preamble. -/
def addDeclaration (s : Shader) (d : Declaration) : Shader :=
  ⟨s.declarations.takeWhile Declaration.isPreamble ++
    d :: s.declarations.dropWhile Declaration.isPreamble⟩

/-- Takes out the first declaration with the given identity. -/
def removeDeclaration? (s : Shader) (id : NodeId) : Option (Declaration × Shader) := do
  let d ← s.declarations.find? fun d => d.id = id
  return (d, ⟨s.declarations.eraseP fun d => d.id = id⟩)

/-- The declarations of uniform variables. -/
def uniformDeclarations (s : Shader) : List (NodeId × Variables) :=
  s.declarations.filterMap fun
    | .globals id vars => if vars.hasQualifier .uniform then some (id, vars) else none
    | _ => none

/-- Without the declarators of that name; none if that leaves a declaration of uniforms empty. -/
def withoutDeclarator (name : String) : Declaration → Option Declaration
  | .globals id vars =>
    if vars.hasQualifier .uniform then
      let rest := vars.vars.filter fun v => v.name ≠ name
      if rest.isEmpty then none else some (.globals id { vars with vars := rest })
    else some (.globals id vars)
  | d => some d

/-- Takes every uniform of that name out of the shader. -/
def removeUniform (s : Shader) (name : String) : Shader :=
  ⟨s.declarations.filterMap (withoutDeclarator name)⟩

/-- The number of uniforms of that name. -/
def countUniforms (s : Shader) (name : String) : Nat :=
  (s.uniformDeclarations.flatMap fun (_, vars) => vars.vars).countP fun v => v.name = name

/-- The functions that have a body, with it. -/
def functionBodies (s : Shader) : List (Function × List Stmt) :=
  s.declarations.filterMap fun
    | .function _ f => f.body.map fun body => (f, body)
    | _ => none

end Shader

/-- The size of the first declarator, if that is an array with a whole number for a size. -/
def Variables.declaredLength (v : Variables) : Option Int32 := do
  let first ← v.vars.head?
  let array ← first.array
  let size ← array.size
  match size with
  | .literal _ (.int n) => some n
  | _ => none

end ShaderLift
