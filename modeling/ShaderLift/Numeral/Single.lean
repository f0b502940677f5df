import ShaderLift.Numeral.Shortest

/-!
Single precision numbers, held as their 32 bits so that signed zeros and not-a-numbers stay
apart, and their text in shader sources.
-/

namespace ShaderLift

open Numeral

structure Single where
  bits : UInt32
  deriving DecidableEq, Repr

namespace Single

def negative (x : Single) : Bool := BinaryFormat.single.signBit ≤ x.bits.toNat

/-- The bits without the sign. -/
def pattern (x : Single) : Nat := x.bits.toNat % BinaryFormat.single.signBit

def isFinite (x : Single) : Bool := x.pattern < BinaryFormat.single.infinity

def ofPattern (negative : Bool) (pattern : Nat) : Single :=
  ⟨.ofNat (if negative then BinaryFormat.single.signBit + pattern else pattern)⟩

/-- Whole numbers and decimals are rounded to nearest, a half to the even pattern. -/
def ofInt (i : Int) : Single :=
  ofPattern (i < 0) (BinaryFormat.single.nearest i.natAbs 1)

/-- The number `digits * 10 ^ exponent`, where it is not rounded beyond the finite ones. -/
def ofDecimal? (digits : Nat) (exponent : Int) : Option Single :=
  let x := ofPattern false (BinaryFormat.single.ofDecimal digits exponent)
  if x.isFinite then some x else none

/-- The digits of the text; a value halfway between two texts of the same length takes the
greater. -/
def decimal (x : Single) : Decimal :=
  if x.pattern = 0 then ⟨0, 0⟩ else BinaryFormat.single.shortest .up x.pattern

/-- Magnitudes from `1e-4` up to `1e16` are written positionally. -/
def layout : Layout := ⟨-4, 15, false⟩

def text (x : Single) : List Char :=
  let sign := if x.negative then ['-'] else []
  if x.isFinite then sign ++ layout.write x.decimal
  else if x.pattern = BinaryFormat.single.infinity then sign ++ ['i', 'n', 'f']
  else ['N', 'a', 'N']

end Single
end ShaderLift
