import ShaderLift.Tree.Expr
import ShaderLift.Tree.Type

/-!
The numbers that can be moved from a shader into a uniform array: 32-bit integers and single
precision numbers. Two are the same when their bits are.
-/

namespace ShaderLift

inductive ScalarType where
  | int
  | float
  deriving DecidableEq, Repr

namespace ScalarType

/-- The uniform array that collects the literals of a type. -/
def arrayName : ScalarType → String
  | int => "_GLF_uniform_int_values"
  | float => "_GLF_uniform_float_values"

def dataType : ScalarType → DataType
  | int => .int
  | float => .float

/-- The function that sets a uniform of the type, alone or as an array. -/
def setter (t : ScalarType) (array : Bool) : String :=
  match t, array with
  | int, false => "glUniform1i"
  | int, true => "glUniform1iv"
  | float, false => "glUniform1f"
  | float, true => "glUniform1fv"

def ofSetter? (func : String) : Option ScalarType :=
  if func = int.setter false || func = int.setter true then some int
  else if func = float.setter false || func = float.setter true then some float
  else none

def text : ScalarType → String
  | int => "int"
  | float => "float"

end ScalarType

inductive Scalar where
  | int (value : Int32)
  | float (value : Single)
  deriving DecidableEq, Repr

namespace Scalar

def type : Scalar → ScalarType
  | int _ => .int
  | float _ => .float

/-- Signed integers and finite numbers can be moved, unsigned integers and truth values cannot. -/
def ofLiteral? : Literal → Option Scalar
  | .int v => some (int v)
  | .float v => if v.isFinite then some (float v) else none
  | .uint _ => none
  | .bool _ => none

def toLiteral : Scalar → Literal
  | int v => .int v
  | float v => .float v

def toSingle : Scalar → Single
  | int v => .ofInt v.toInt
  | float v => v

def text (x : Scalar) : List Char := x.toLiteral.text

end Scalar
end ShaderLift
