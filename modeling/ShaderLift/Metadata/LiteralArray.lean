import ShaderLift.Metadata.Basic

/-!
Arrays of values in the metadata. A value is interned into an array: it gets the index at which it
stands there, or is appended.
-/

namespace ShaderLift

/-- What a uniform array holds. -/
structure ArrayContents where
  type : ScalarType
  values : List Scalar
  deriving DecidableEq, Repr

namespace Metadata

def contents (m : Metadata) (name : String) : Except Fault ArrayContents :=
  match m.uniform? name with
  | none => .error (.unknownUniform name)
  | some r => do
    let (type, values) ← r.decode name
    return ⟨type, values⟩

/-- Makes sure that there is a uniform of that name, by an empty array with the next binding. With an
error come the metadata as they were left. -/
def reserve (m : Metadata) (name : String) (type : ScalarType) : Except Fault Unit × Metadata :=
  if m.hasUniform name then (.ok (), m)
  else
    match m.nextBinding with
    | .error e => (.error e, m)
    | .ok binding =>
      (.ok (), m.setUniform name { UniformRecord.emptyArray type with binding := some binding })

/-- The index of a value in a list, after appending it if it is not there. -/
def place (values : List Scalar) (value : Scalar) : Nat × List Scalar :=
  match values.idxOf? value with
  | some i => (i, values)
  | none => (values.length, values ++ [value])

/-- The binding that a record keeps or gets once it is used. -/
def settledBinding (m : Metadata) (r : UniformRecord) : Except Fault (Option Nat) :=
  match r.binding with
  | some b => .ok (some b)
  | none => if r.pushConstant then .ok none else m.nextBinding.map some

/-- The index of the value in the array, and the array's record with the value there. -/
def grown (m : Metadata) (name : String) (value : Scalar) : Except Fault (Nat × UniformRecord) :=
  match m.uniform? name with
  | none => .error (.unknownUniform name)
  | some old => do
    let (type, values) ← old.decode name
    if type ≠ value.type then throw (.typeMismatch name type value.type)
    if value.toNumber?.isNone then throw (.nonFiniteValue name value.toSingle)
    let (i, values) := place values value
    let new ← UniformRecord.ofScalars name type (some values.length) values
    let binding ← m.settledBinding old
    return (i, { new with pushConstant := old.pushConstant, binding })

/-- The index of the value in the array, which has it from then on. The new record is complete before
the old one gives way to it. With an error come the metadata as they were left. -/
def intern (m : Metadata) (name : String) (value : Scalar) : Except Fault Nat × Metadata :=
  match m.grown name value with
  | .error e => (.error e, m)
  | .ok (i, r) => (.ok i, m.setUniform name r)

end Metadata
end ShaderLift
