import ShaderLift.Fault
import ShaderLift.Json.Value

/-!
The entries of a job's metadata: records of uniforms, and anything else, which is kept as it is.
-/

namespace ShaderLift

namespace Scalar

/-- The number that stands for a value in metadata; a number that is not finite has none. -/
def toNumber? : Scalar → Option Number
  | int v => some (.whole v.toInt)
  | float v => if v.isFinite then some (.real (.ofSingle v)) else none

/-- The value of a type that a number stands for. -/
def ofNumber? : ScalarType → Number → Option Scalar
  | .int, .whole i =>
    if Int32.minValue.toInt ≤ i && i ≤ Int32.maxValue.toInt then some (.int (.ofInt i)) else none
  | .int, .real _ => none
  | .float, n =>
    let x := match n with
      | .whole i => (Double.ofInt i).toSingle
      | .real x => x.toSingle
    if x.isFinite then some (.float x) else none

end Scalar

/-- How a uniform is set. -/
structure UniformRecord where
  func : String
  count : Option Nat
  args : List Number
  binding : Option Nat
  pushConstant : Bool
  deriving DecidableEq, Repr

namespace UniformRecord

def type? (r : UniformRecord) : Option ScalarType := ScalarType.ofSetter? r.func

/-- The numbers of values for the uniform `name`; all of them have to be finite. -/
def encode (name : String) (values : List Scalar) : Except Fault (List Number) :=
  values.mapM fun v =>
    match v.toNumber? with
    | some n => .ok n
    | none => .error (.nonFiniteValue name v.toSingle)

/-- A record without a binding, for an array if there is a count. -/
def ofScalars (name : String) (type : ScalarType) (count : Option Nat) (values : List Scalar) :
    Except Fault UniformRecord :=
  return ⟨type.setter count.isSome, count, ← encode name values, none, false⟩

def emptyArray (type : ScalarType) : UniformRecord := ⟨type.setter true, some 0, [], none, false⟩

/-- The values of the uniform `name`. -/
def decode (name : String) (r : UniformRecord) : Except Fault (ScalarType × List Scalar) := do
  match r.type? with
  | none => throw (.malformedUniform name)
  | some type =>
    let values ← r.args.mapM fun n =>
      match Scalar.ofNumber? type n with
      | some v => .ok v
      | none => .error (.malformedUniform name)
    return (type, values)

/-- The fields in a fixed order; what is absent or false is left out. -/
def toJson (r : UniformRecord) : Json :=
  let whole (n : Nat) : Json := .number (.whole n)
  .object <|
    [("func", .string r.func)] ++ (r.count.map fun n => ("count", whole n)).toList ++
    [("args", .array (r.args.map .number))] ++
    (r.binding.map fun n => ("binding", whole n)).toList ++
    (if r.pushConstant then [("push_constant", .bool true)] else [])

/-! Recognising a record. A field of a known name may stand once; fields of other names are
dropped. -/

def text? : Json → Option String
  | .string s => some s
  | _ => none

def number? : Json → Option Number
  | .number n => some n
  | _ => none

def numbers? : Json → Option (List Number)
  | .array items => items.mapM number?
  | _ => none

def flag? : Json → Option Bool
  | .bool b => some b
  | _ => none

/-- A whole number below the bound, or null for none. -/
def whole? (bound : Nat) : Json → Option (Option Nat)
  | .null => some none
  | .number (.whole i) => if 0 ≤ i && i < bound then some (some i.toNat) else none
  | _ => none

def repeats (fields : List (String × Json)) (name : String) : Bool :=
  1 < fields.countP fun f => f.1 = name

def ofFields? (fields : List (String × Json)) : Option UniformRecord := do
  if ["func", "count", "args", "binding", "push_constant"].any (repeats fields) then none
  let func ← text? (← fields.lookup "func")
  let count ← whole? UInt64.size ((fields.lookup "count").getD .null)
  let args ← numbers? (← fields.lookup "args")
  let binding ← whole? UInt32.size ((fields.lookup "binding").getD .null)
  let pushConstant ← flag? ((fields.lookup "push_constant").getD (.bool false))
  return ⟨func, count, args, binding, pushConstant⟩

def ofItems? : List Json → Option UniformRecord
  | func :: count :: args :: rest => do
    let func ← text? func
    let count ← whole? UInt64.size count
    let args ← numbers? args
    match rest with
    | [] => return ⟨func, count, args, none, false⟩
    | [binding] => return ⟨func, count, args, ← whole? UInt32.size binding, false⟩
    | [binding, push] => return ⟨func, count, args, ← whole? UInt32.size binding, ← flag? push⟩
    | _ => none
  | _ => none

/-- A record may be written as an object or as the list of its fields. -/
def ofJson? : Json → Option UniformRecord
  | .object fields => ofFields? fields
  | .array items => ofItems? items
  | _ => none

/-- Equal as data. -/
def same (a b : UniformRecord) : Bool :=
  a.func = b.func && a.count = b.count && a.binding = b.binding &&
    a.pushConstant = b.pushConstant && Json.sameItems (a.args.map .number) (b.args.map .number)

end UniformRecord

inductive Entry where
  | uniform (record : UniformRecord)
  | other (value : Json)
  deriving BEq, Repr

namespace Entry

def uniform? : Entry → Option UniformRecord
  | uniform r => some r
  | other _ => none

def ofJson (value : Json) : Entry :=
  match UniformRecord.ofJson? value with
  | some r => uniform r
  | none => other value.normal

def toJson : Entry → Json
  | uniform r => r.toJson
  | other v => v

def same : Entry → Entry → Bool
  | uniform a, uniform b => a.same b
  | other a, other b => a.same b
  | _, _ => false

end Entry
end ShaderLift
