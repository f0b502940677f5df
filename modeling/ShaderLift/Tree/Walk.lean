import ShaderLift.Tree.Node

/-!
Walks through all nodes of a shader, each parent before its children, with the siblings from first
to last or from last to first.
-/

namespace ShaderLift

mutual

def Expr.size : Expr → Nat
  | literal _ _ => 1
  | name _ _ => 1
  | paren _ e => e.size + 1
  | unary _ _ e => e.size + 1
  | binary _ _ l r => l.size + r.size + 1
  | assign _ _ l r => l.size + r.size + 1
  | ternary _ c y n => c.size + y.size + n.size + 1
  | call _ _ args => Expr.sizeOfArgs args + 1
  | index _ b i => b.size + i.size + 1
  | member _ b _ => b.size + 1

def Expr.sizeOfArgs : List Expr → Nat
  | [] => 0
  | e :: es => e.size + Expr.sizeOfArgs es

end

def sizeOfOption : Option Expr → Nat
  | some e => e.size
  | none => 0

def sizeOfSuffix (a : Option ArraySuffix) : Nat := sizeOfOption (a.bind ArraySuffix.size)

def sizeOfSuffixes : List (Option ArraySuffix) → Nat
  | [] => 0
  | a :: rest => sizeOfSuffix a + sizeOfSuffixes rest

def sizeOfDeclarators : List Declarator → Nat
  | [] => 0
  | d :: rest => sizeOfSuffix d.array + sizeOfOption d.init + sizeOfDeclarators rest

def Variables.size (v : Variables) : Nat := sizeOfDeclarators v.vars

mutual

def Stmt.size : Stmt → Nat
  | block _ body => Stmt.sizeOfBody body + 1
  | declare _ vars => vars.size + 1
  | expr _ e => e.size + 1
  | ifThen _ c y => c.size + y.size + 1
  | ifElse _ c y n => c.size + y.size + n.size + 1
  | forLoop _ init c s body => init.size + sizeOfOption c + sizeOfOption s + body.size + 1
  | whileLoop _ c body => c.size + body.size + 1
  | doWhile _ body c => body.size + c.size + 1
  | ret _ e => sizeOfOption e + 1
  | jump _ _ => 1
  | empty _ => 1

def Stmt.sizeOfBody : List Stmt → Nat
  | [] => 0
  | s :: rest => s.size + Stmt.sizeOfBody rest

end

def Declaration.size : Declaration → Nat
  | directive _ _ => 1
  | precision _ _ _ => 1
  | globals _ vars => vars.size + 1
  | interfaceBlock _ b => sizeOfSuffixes (b.members.map BlockMember.array) + 1
  | qualifiers _ _ => 1
  | function _ f =>
    sizeOfSuffixes (f.params.map Param.array) + Stmt.sizeOfBody (f.body.getD []) + 1

def Node.size : Node → Nat
  | declaration d => d.size
  | statement s => s.size
  | expression e => e.size

def sizeOfDeclarations : List Declaration → Nat
  | [] => 0
  | d :: rest => d.size + sizeOfDeclarations rest

def Shader.size (s : Shader) : Nat := sizeOfDeclarations s.declarations

inductive Parent where
  | root
  | node (id : NodeId)
  deriving DecidableEq, Repr

/-- A node's parent, and the slot it has there. -/
structure Link where
  parent : Parent
  slot : Slot
  deriving DecidableEq, Repr

/-- A node on a walk, with the way to it. -/
structure Visit where
  link : Link
  path : Path
  node : Node
  deriving Repr

inductive Direction where
  | forward
  | backward
  deriving DecidableEq, Repr

def Direction.arrange {α : Type} (dir : Direction) (siblings : List α) : List α :=
  match dir with
  | .forward => siblings
  | .backward => siblings.reverse

def Visit.child (v : Visit) (slot : Slot) (child : Node) : Visit :=
  ⟨⟨.node v.node.id, slot⟩, v.path ++ [slot], child⟩

def Visit.walkFuel (dir : Direction) : Nat → Visit → List Visit
  | 0, _ => []
  | fuel + 1, v =>
    v :: (dir.arrange v.node.children).flatMap fun (slot, c) => walkFuel dir fuel (v.child slot c)

/-- The walk through a node and all below it. No branch is longer than there are nodes. -/
def Visit.walk (dir : Direction) (v : Visit) : List Visit := v.walkFuel dir v.node.size

def Visit.top (slot : Slot) (n : Node) : Visit := ⟨⟨.root, slot⟩, [slot], n⟩

def Shader.walk (s : Shader) (dir : Direction) : List Visit :=
  (dir.arrange s.children).flatMap fun (slot, n) => (Visit.top slot n).walk dir

end ShaderLift
