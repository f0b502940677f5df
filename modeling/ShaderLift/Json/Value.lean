import ShaderLift.Dictionary
import ShaderLift.Numeral.Double

/-!
JSON values. Numbers without point and exponent within 64 bits are kept as whole numbers, all
others as double precision numbers.
-/

namespace ShaderLift

inductive Number where
  | whole (value : Int)
  | real (value : Double)
  deriving DecidableEq, Repr

/-- Equal as data: whole and real numbers differ, real numbers compare as numbers. -/
def Number.same : Number → Number → Bool
  | whole a, whole b => a = b
  | real a, real b => a.sameNumber b
  | _, _ => false

inductive Json where
  | null
  | bool (value : Bool)
  | number (value : Number)
  | string (value : String)
  | array (items : List Json)
  | object (fields : List (String × Json))
  deriving BEq, Repr

namespace Json

mutual

/-- Every object with its fields sorted by name, the last one of each name. -/
def normal : Json → Json
  | null => null
  | bool b => bool b
  | number n => number n
  | string s => string s
  | array items => array (normalItems items)
  | object fields => object (Dictionary.ofList (normalFields fields)).entries

def normalItems : List Json → List Json
  | [] => []
  | v :: rest => v.normal :: normalItems rest

def normalFields : List (String × Json) → List (String × Json)
  | [] => []
  | (name, v) :: rest => (name, v.normal) :: normalFields rest

end

mutual

/-- Equal as data. -/
def same : Json → Json → Bool
  | null, null => true
  | bool a, bool b => a = b
  | number a, number b => a.same b
  | string a, string b => a = b
  | array a, array b => sameItems a b
  | object a, object b => sameFields a b
  | _, _ => false

def sameItems : List Json → List Json → Bool
  | [], [] => true
  | a :: as, b :: bs => a.same b && sameItems as bs
  | _, _ => false

def sameFields : List (String × Json) → List (String × Json) → Bool
  | [], [] => true
  | (m, a) :: as, (n, b) :: bs => m = n && a.same b && sameFields as bs
  | _, _ => false

end

end Json
end ShaderLift
