import ShaderLift.Numeral.Digits

/-!
Data types and the qualifiers that stand in front of them, with their texts.
-/

namespace ShaderLift

/-- The number of components of a vector, or of columns or rows of a matrix. -/
inductive Dim where
  | two
  | three
  | four
  deriving DecidableEq, Repr

namespace Dim

def text : Dim → Char
  | two => '2'
  | three => '3'
  | four => '4'

def ofText? : List Char → Option Dim
  | ['2'] => some two
  | ['3'] => some three
  | ['4'] => some four
  | _ => none

end Dim

inductive DataType where
  | void
  | bool
  | int
  | uint
  | float
  | vec (size : Dim)
  | ivec (size : Dim)
  | uvec (size : Dim)
  | bvec (size : Dim)
  | mat (columns rows : Dim)
  | sampler2D
  | sampler3D
  | samplerCube
  deriving DecidableEq, Repr

namespace DataType

/-- A square matrix is written with one number. -/
def text : DataType → List Char
  | void => "void".toList
  | bool => "bool".toList
  | int => "int".toList
  | uint => "uint".toList
  | float => "float".toList
  | vec n => "vec".toList ++ [n.text]
  | ivec n => "ivec".toList ++ [n.text]
  | uvec n => "uvec".toList ++ [n.text]
  | bvec n => "bvec".toList ++ [n.text]
  | mat c r => if c = r then "mat".toList ++ [c.text] else "mat".toList ++ [c.text, 'x', r.text]
  | sampler2D => "sampler2D".toList
  | sampler3D => "sampler3D".toList
  | samplerCube => "samplerCube".toList

/-- The size of a matrix type: one number, or columns and rows around an `x`. -/
def matrix? (size : List Char) : Option DataType :=
  match size.dropWhile (· ≠ 'x') with
  | _ :: rows => do
    let c ← Dim.ofText? (size.takeWhile (· ≠ 'x'))
    let r ← Dim.ofText? rows
    return mat c r
  | [] => (Dim.ofText? size).map fun n => mat n n

def ofText? : List Char → Option DataType
  | ['v', 'o', 'i', 'd'] => some void
  | ['b', 'o', 'o', 'l'] => some bool
  | ['i', 'n', 't'] => some int
  | ['u', 'i', 'n', 't'] => some uint
  | ['f', 'l', 'o', 'a', 't'] => some float
  | ['s', 'a', 'm', 'p', 'l', 'e', 'r', '2', 'D'] => some sampler2D
  | ['s', 'a', 'm', 'p', 'l', 'e', 'r', '3', 'D'] => some sampler3D
  | ['s', 'a', 'm', 'p', 'l', 'e', 'r', 'C', 'u', 'b', 'e'] => some samplerCube
  | 'm' :: 'a' :: 't' :: size => matrix? size
  | 'i' :: 'v' :: 'e' :: 'c' :: size => (Dim.ofText? size).map ivec
  | 'u' :: 'v' :: 'e' :: 'c' :: size => (Dim.ofText? size).map uvec
  | 'b' :: 'v' :: 'e' :: 'c' :: size => (Dim.ofText? size).map bvec
  | 'v' :: 'e' :: 'c' :: size => (Dim.ofText? size).map vec
  | _ => none

end DataType

inductive Precision where
  | high
  | medium
  | low
  deriving DecidableEq, Repr

def Precision.text : Precision → List Char
  | high => "highp".toList
  | medium => "mediump".toList
  | low => "lowp".toList

structure LayoutItem where
  name : String
  value : Option UInt32
  deriving DecidableEq, Repr

def LayoutItem.text (item : LayoutItem) : List Char :=
  match item.value with
  | some v => item.name.toList ++ " = ".toList ++ Numeral.decimal v.toNat
  | none => item.name.toList

inductive Qualifier where
  | const
  | uniform
  | input
  | output
  | inout
  | flat
  | buffer
  | precision (p : Precision)
  | layout (items : List LayoutItem)
  deriving DecidableEq, Repr

/-- Texts with a separator between every two. -/
def joinTexts (separator : List Char) : List (List Char) → List Char
  | [] => []
  | [text] => text
  | text :: texts => text ++ separator ++ joinTexts separator texts

def Qualifier.text : Qualifier → List Char
  | const => "const".toList
  | uniform => "uniform".toList
  | input => "in".toList
  | output => "out".toList
  | inout => "inout".toList
  | flat => "flat".toList
  | buffer => "buffer".toList
  | precision p => p.text
  | layout items => "layout(".toList ++ joinTexts ", ".toList (items.map LayoutItem.text) ++ [')']

structure QualifiedType where
  qualifiers : List Qualifier
  base : DataType
  deriving DecidableEq, Repr

def QualifiedType.text (t : QualifiedType) : List Char :=
  t.qualifiers.flatMap (fun q => q.text ++ [' ']) ++ t.base.text

end ShaderLift
