import ShaderLift.Tree.Walk

/-!
Looking up an identity. The search keeps a stack of nodes to look at: it takes the top one and puts
that one's children in its place, the last on top. It stops at the first node with the identity,
so what is below and behind that node is not looked at.
-/

namespace ShaderLift

/-- The children as they come onto a stack. -/
def Visit.below (v : Visit) : List Visit :=
  v.node.children.reverse.map fun (slot, c) => v.child slot c

/-- The stack that a search starts with. -/
def Shader.tops (s : Shader) : List Visit :=
  s.children.reverse.map fun (slot, n) => Visit.top slot n

def searchFuel (id : NodeId) : Nat → List Visit → Option Visit
  | 0, _ => none
  | _ + 1, [] => none
  | fuel + 1, v :: stack =>
    if v.node.id = id then some v else searchFuel id fuel (v.below ++ stack)

/-- Every step takes one node off the stack for good. -/
def Shader.visit? (s : Shader) (id : NodeId) : Option Visit := searchFuel id s.size s.tops

def Shader.find? (s : Shader) (id : NodeId) : Option Node := (s.visit? id).map Visit.node

/-- The expression that has the identity, unless another kind of node with it comes first. -/
def Shader.findExpr? (s : Shader) (id : NodeId) : Option Expr := (s.find? id).bind Node.expression?

end ShaderLift
