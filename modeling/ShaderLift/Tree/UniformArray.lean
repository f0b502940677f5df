import ShaderLift.Scalar
import ShaderLift.Tree.Numbering

/-!
The pieces of a shader that refer to a uniform array: its declaration, and the expression that
reads one of its elements.
-/

namespace ShaderLift

/-- Numbers beyond the signed 32-bit range are written as its greatest. -/
def countLiteral (n : Nat) : Literal := .int (.ofNat (min n 2147483647))

def arrayDeclaration (name : String) (type : ScalarType) (length : Nat) : Numbered Declaration := do
  let size := Expr.literal (← fresh) (countLiteral length)
  let vars : Variables := ⟨⟨[.uniform], type.dataType⟩, [⟨name, some ⟨some size⟩, none⟩]⟩
  return .globals (← fresh) vars

def elementExpr (name : String) (position : Nat) : Numbered Expr := do
  let base := Expr.name (← fresh) name
  let position := Expr.literal (← fresh) (countLiteral position)
  return .index (← fresh) base position

end ShaderLift
