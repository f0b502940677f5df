import ShaderLift.Tree.Expr
import ShaderLift.Tree.Type

/-!
Statements, and the declarations of variables that stand among them.
-/

namespace ShaderLift

/-- What follows the name of an array: brackets, with or without a size. -/
structure ArraySuffix where
  size : Option Expr
  deriving BEq, Repr

/-- A variable with its array suffix and initial value, if it has them. -/
structure Declarator where
  name : String
  array : Option ArraySuffix
  init : Option Expr
  deriving BEq, Repr

structure Variables where
  type : QualifiedType
  vars : List Declarator
  deriving BEq, Repr

def Variables.hasQualifier (v : Variables) (q : Qualifier) : Bool := v.type.qualifiers.contains q

inductive Jump where
  | breakLoop
  | continueLoop
  | discard
  deriving DecidableEq, Repr

inductive Stmt where
  | block (id : NodeId) (body : List Stmt)
  | declare (id : NodeId) (vars : Variables)
  | expr (id : NodeId) (value : Expr)
  | ifThen (id : NodeId) (cond : Expr) (yes : Stmt)
  | ifElse (id : NodeId) (cond : Expr) (yes no : Stmt)
  | forLoop (id : NodeId) (init : Stmt) (cond step : Option Expr) (body : Stmt)
  | whileLoop (id : NodeId) (cond : Expr) (body : Stmt)
  | doWhile (id : NodeId) (body : Stmt) (cond : Expr)
  | ret (id : NodeId) (value : Option Expr)
  | jump (id : NodeId) (kind : Jump)
  | empty (id : NodeId)
  deriving BEq, Repr

namespace Stmt

def id : Stmt → NodeId
  | block id _ => id
  | declare id _ => id
  | expr id _ => id
  | ifThen id _ _ => id
  | ifElse id _ _ _ => id
  | forLoop id _ _ _ _ => id
  | whileLoop id _ _ => id
  | doWhile id _ _ => id
  | ret id _ => id
  | jump id _ => id
  | empty id => id

def withId (new : NodeId) : Stmt → Stmt
  | block _ body => block new body
  | declare _ vars => declare new vars
  | expr _ e => expr new e
  | ifThen _ c y => ifThen new c y
  | ifElse _ c y n => ifElse new c y n
  | forLoop _ init c s body => forLoop new init c s body
  | whileLoop _ c body => whileLoop new c body
  | doWhile _ body c => doWhile new body c
  | ret _ e => ret new e
  | jump _ k => jump new k
  | empty _ => empty new

end Stmt
end ShaderLift
