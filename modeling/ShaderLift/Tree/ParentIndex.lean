import ShaderLift.Fault
import ShaderLift.Tree.Place

/-!
An index from identities to parents, taken from a shader at one time and perhaps used on it after
changes. Replacing an expression goes through its parent and is refused unless the expression with
that identity is still in its slot.
-/

namespace ShaderLift

structure ParentIndex where
  /-- The node that came to the top of the stack last stands first. -/
  links : List (NodeId × Link)
  deriving DecidableEq, Repr

namespace ParentIndex

def gatherFuel : Nat → List Visit → List (NodeId × Link) → List (NodeId × Link)
  | 0, _, links => links
  | _ + 1, [], links => links
  | fuel + 1, v :: stack, links => gatherFuel fuel (v.below ++ stack) ((v.node.id, v.link) :: links)

/-- Goes through the stack of a search to its end. -/
def ofShader (s : Shader) : ParentIndex := ⟨gatherFuel s.size s.tops []⟩

/-- Of several nodes with one identity, the last that was found counts. -/
def link? (index : ParentIndex) (id : NodeId) : Option Link := index.links.lookup id

/-- The number of different identities. -/
def size (index : ParentIndex) : Nat := (index.links.map Prod.fst).eraseDups.length

/-- Puts `new` in the place of the expression with the identity, which is returned. The parent is
looked up in the shader and the slot in the parent. With a refusal comes the shader as it was left. -/
def replace (index : ParentIndex) (s : Shader) (id : NodeId) (new : Expr) :
    Except Fault Expr × Shader :=
  match index.link? id with
  | none => (.error (.nodeNotFound id), s)
  | some ⟨.root, _⟩ => (.error (.notAnExpression id), s)
  | some ⟨.node parent, slot⟩ =>
    match s.place? parent with
    | none => (.error (.nodeNotFound id), s)
    | some p =>
      match p.child? slot with
      | none => (.error (.nodeNotFound id), s)
      | some (.expression e put) =>
        if e.id = id then (.ok e, put new) else (.error (.nodeNotFound id), s)
      | some _ => (.error (.notAnExpression id), s)

end ParentIndex
end ShaderLift
