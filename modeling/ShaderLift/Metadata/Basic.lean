import ShaderLift.Json.Reader
import ShaderLift.Json.Writer
import ShaderLift.Metadata.Record

/-!
A job's metadata: a dictionary of entries, with its JSON text. The bindings of its uniforms are
32-bit numbers, and a new one is one more than the highest.
-/

namespace ShaderLift

structure Metadata where
  table : Dictionary Entry := {}

namespace Metadata

def uniform? (m : Metadata) (name : String) : Option UniformRecord :=
  (m.table.get? name).bind Entry.uniform?

def hasUniform (m : Metadata) (name : String) : Bool := (m.uniform? name).isSome

/-- The uniforms, sorted by name. -/
def uniforms (m : Metadata) : List (String × UniformRecord) :=
  m.table.entries.filterMap fun (name, entry) => entry.uniform?.map fun r => (name, r)

def bindings (m : Metadata) : List Nat := m.uniforms.filterMap fun (_, r) => r.binding

def nextBinding (m : Metadata) : Except Fault Nat :=
  match m.bindings.max? with
  | none => .ok 0
  | some highest =>
    if highest + 1 < UInt32.size then .ok (highest + 1) else .error .bindingsExhausted

/-- Puts a record under a name, whatever was there. -/
def setUniform (m : Metadata) (name : String) (r : UniformRecord) : Metadata :=
  ⟨m.table.insert name (.uniform r)⟩

/-- Puts a record without a binding under a name. -/
def addUniform (m : Metadata) (name : String) (type : ScalarType) (count : Option Nat)
    (values : List Scalar) : Except Fault Metadata :=
  return m.setUniform name (← UniformRecord.ofScalars name type count values)

/-- Removes a uniform; another entry of that name stays. -/
def removeUniform (m : Metadata) (name : String) : Metadata :=
  if m.hasUniform name then ⟨m.table.erase name⟩ else m

/-- Makes a uniform a push constant, or gives it a binding. It never has both. -/
def bind (m : Metadata) (name : String) (pushConstant : Bool) (binding : Nat) :
    Except Fault Metadata :=
  match m.uniform? name with
  | none => .error (.unknownUniform name)
  | some r =>
    let binding := if pushConstant then none else some binding
    .ok (m.setUniform name { r with pushConstant, binding })

def toJson (m : Metadata) : Json :=
  .object (m.table.entries.map fun (name, entry) => (name, entry.toJson))

/-- The text without spaces. -/
def compact (m : Metadata) : String := String.ofList m.toJson.compact

/-- The text with a line to every item. -/
def pretty (m : Metadata) : String := String.ofList (m.toJson.pretty 0)

/-- What is wrong with a metadata text. -/
inductive TextError where
  | ended
  | malformed
  /-- The text starts a value that is no object. -/
  | notAnObject
  deriving DecidableEq, Repr

def TextError.ofJson : JsonError → TextError
  | .ended => .ended
  | .malformed => .malformed

/-- Objects and arrays may nest 127 deep, the metadata itself counted. -/
def nesting : Nat := 126

/-- The fields of the object that the text consists of, as they stand there. -/
def readFields : Json.Reader (List (String × Json)) := do
  Json.advance
  let fields ← Json.readFields (Json.readValue nesting)
  if (← Json.peek).isSome then throw .malformed
  return fields

/-- A text that starts another value is read far enough to see that it is one. -/
def ofText (text : String) : Except TextError Metadata :=
  match Json.peek text.toList with
  | .ok (some '\x7b', cs) =>
    match readFields cs with
    | .ok (fields, _) => .ok ⟨.ofList (fields.map fun (name, v) => (name, .ofJson v))⟩
    | .error e => .error (.ofJson e)
  | .ok (some '[', _) => .error .notAnObject
  | .ok (_, cs) =>
    match Json.readAtom cs with
    | .ok _ => .error .notAnObject
    | .error e => .error (.ofJson e)
  | .error e => .error (.ofJson e)

/-- Equal as data. -/
def same (a b : Metadata) : Bool :=
  a.table.entries.length = b.table.entries.length &&
    (a.table.entries.zip b.table.entries).all fun (x, y) => x.1 = y.1 && x.2.same y.2

end Metadata
end ShaderLift
