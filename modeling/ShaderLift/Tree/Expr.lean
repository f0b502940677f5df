import ShaderLift.Numeral.Single

/-!
Expressions. Every node carries an identity; a node that has none yet carries the unassigned one.
-/

namespace ShaderLift

abbrev NodeId := Nat

/-- The identity of a node before numbering. -/
def NodeId.unassigned : NodeId := 4294967295

def NodeId.text (id : NodeId) : List Char := '#' :: Numeral.decimal id

inductive Literal where
  | int (value : Int32)
  | uint (value : UInt32)
  | float (value : Single)
  | bool (value : Bool)
  deriving DecidableEq, Repr

def Literal.text : Literal → List Char
  | int v => Numeral.integer v.toInt
  | uint v => Numeral.decimal v.toNat ++ ['u']
  | float v => v.text
  | bool v => if v then "true".toList else "false".toList

inductive UnaryOp where
  | neg | plus | not | bitNot | preInc | preDec | postInc | postDec
  deriving DecidableEq, Repr

namespace UnaryOp

def text : UnaryOp → List Char
  | neg => ['-']
  | plus => ['+']
  | not => ['!']
  | bitNot => ['~']
  | preInc => ['+', '+']
  | preDec => ['-', '-']
  | postInc => ['+', '+']
  | postDec => ['-', '-']

def isPostfix : UnaryOp → Bool
  | postInc => true
  | postDec => true
  | _ => false

/-- Written with plus or minus signs in front of the operand, so that two of them in a row need a
space between. -/
def isSign : UnaryOp → Bool
  | neg => true
  | plus => true
  | preInc => true
  | preDec => true
  | _ => false

end UnaryOp

inductive BinaryOp where
  | mul | div | rem | add | sub | shl | shr
  | lt | gt | le | ge | eq | ne
  | bitAnd | bitXor | bitOr | logicalAnd | logicalXor | logicalOr
  deriving DecidableEq, Repr

namespace BinaryOp

def text : BinaryOp → List Char
  | mul => ['*']
  | div => ['/']
  | rem => ['%']
  | add => ['+']
  | sub => ['-']
  | shl => ['<', '<']
  | shr => ['>', '>']
  | lt => ['<']
  | gt => ['>']
  | le => ['<', '=']
  | ge => ['>', '=']
  | eq => ['=', '=']
  | ne => ['!', '=']
  | bitAnd => ['&']
  | bitXor => ['^']
  | bitOr => ['|']
  | logicalAnd => ['&', '&']
  | logicalXor => ['^', '^']
  | logicalOr => ['|', '|']

/-- From 1, which binds tightest, to `loosest`. -/
def level : BinaryOp → Nat
  | mul => 1
  | div => 1
  | rem => 1
  | add => 2
  | sub => 2
  | shl => 3
  | shr => 3
  | lt => 4
  | gt => 4
  | le => 4
  | ge => 4
  | eq => 5
  | ne => 5
  | bitAnd => 6
  | bitXor => 7
  | bitOr => 8
  | logicalAnd => 9
  | logicalXor => 10
  | logicalOr => 11

def loosest : Nat := 11

end BinaryOp

inductive AssignOp where
  | assign | add | sub | mul | div | rem
  deriving DecidableEq, Repr

def AssignOp.text : AssignOp → List Char
  | assign => ['=']
  | add => ['+', '=']
  | sub => ['-', '=']
  | mul => ['*', '=']
  | div => ['/', '=']
  | rem => ['%', '=']

inductive Expr where
  | literal (id : NodeId) (value : Literal)
  | name (id : NodeId) (name : String)
  | paren (id : NodeId) (inner : Expr)
  | unary (id : NodeId) (op : UnaryOp) (operand : Expr)
  | binary (id : NodeId) (op : BinaryOp) (lhs rhs : Expr)
  | assign (id : NodeId) (op : AssignOp) (lhs rhs : Expr)
  | ternary (id : NodeId) (cond yes no : Expr)
  | call (id : NodeId) (callee : String) (args : List Expr)
  | index (id : NodeId) (base position : Expr)
  | member (id : NodeId) (base : Expr) (field : String)
  deriving BEq, Repr

namespace Expr

def id : Expr → NodeId
  | literal id _ => id
  | name id _ => id
  | paren id _ => id
  | unary id _ _ => id
  | binary id _ _ _ => id
  | assign id _ _ _ => id
  | ternary id _ _ _ => id
  | call id _ _ => id
  | index id _ _ => id
  | member id _ _ => id

def withId (new : NodeId) : Expr → Expr
  | literal _ v => literal new v
  | name _ n => name new n
  | paren _ e => paren new e
  | unary _ op e => unary new op e
  | binary _ op l r => binary new op l r
  | assign _ op l r => assign new op l r
  | ternary _ c y n => ternary new c y n
  | call _ f args => call new f args
  | index _ b i => index new b i
  | member _ b f => member new b f

def literal? : Expr → Option Literal
  | literal _ v => some v
  | _ => none

def isSign : Expr → Bool
  | unary _ op _ => op.isSign
  | _ => false

mutual

def text : Expr → List Char
  | literal _ v => v.text
  | name _ n => n.toList
  | paren _ e => '(' :: e.text ++ [')']
  | unary _ op e =>
    if op.isPostfix then e.text ++ op.text
    else op.text ++ (if op.isSign && e.isSign then [' '] else []) ++ e.text
  | binary _ op l r => l.text ++ ' ' :: op.text ++ ' ' :: r.text
  | assign _ op l r => l.text ++ ' ' :: op.text ++ ' ' :: r.text
  | ternary _ c y n => c.text ++ " ? ".toList ++ y.text ++ " : ".toList ++ n.text
  | call _ f args => f.toList ++ '(' :: textOfArgs args ++ [')']
  | index _ b i => b.text ++ '[' :: i.text ++ [']']
  | member _ b f => b.text ++ '.' :: f.toList

def textOfArgs : List Expr → List Char
  | [] => []
  | e :: es => e.text ++ textOfMoreArgs es

def textOfMoreArgs : List Expr → List Char
  | [] => []
  | e :: es => ", ".toList ++ e.text ++ textOfMoreArgs es

end

end Expr
end ShaderLift
