import ShaderLift.Scalar

/-!
Why an operation on a job fails, and what is said about it.
-/

namespace ShaderLift

inductive Fault where
  | nodeNotFound (node : NodeId)
  | notAnExpression (node : NodeId)
  | unsupportedLiteral (node : NodeId) (literal : Literal)
  | unknownUniform (name : String)
  | malformedUniform (name : String)
  | nonFiniteValue (name : String) (value : Single)
  | typeMismatch (name : String) (expected found : ScalarType)
  /-- The highest binding is in use, so there is none after it. -/
  | bindingsExhausted
  deriving DecidableEq, Repr

def Fault.message : Fault → String
  | nodeNotFound node => "node " ++ String.ofList node.text ++ " not found in the indexed tree"
  | notAnExpression node =>
    "node " ++ String.ofList node.text ++ " is not held in an expression slot"
  | unsupportedLiteral node literal =>
    "literal " ++ String.ofList literal.text ++ " at node " ++ String.ofList node.text ++
      " is neither an integer nor a finite float"
  | unknownUniform name => "uniform '" ++ name ++ "' is not registered"
  | malformedUniform name => "uniform '" ++ name ++ "' has a malformed argument list"
  | nonFiniteValue name value =>
    "uniform '" ++ name ++ "' cannot hold non-finite value " ++ String.ofList value.text
  | typeMismatch name expected found =>
    "uniform '" ++ name ++ "' holds " ++ expected.text ++ " values, got " ++ found.text
  | bindingsExhausted => "no binding is left"

end ShaderLift
