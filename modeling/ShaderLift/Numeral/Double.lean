import ShaderLift.Numeral.Single

/-!
Double precision numbers by their 64 bits, as metadata holds them, with their text there.
-/

namespace ShaderLift

open Numeral

structure Double where
  bits : UInt64
  deriving DecidableEq, Repr

namespace Double

def negative (x : Double) : Bool := BinaryFormat.double.signBit ≤ x.bits.toNat

def pattern (x : Double) : Nat := x.bits.toNat % BinaryFormat.double.signBit

def ofPattern (negative : Bool) (pattern : Nat) : Double :=
  ⟨.ofNat (if negative then BinaryFormat.double.signBit + pattern else pattern)⟩

def ofInt (i : Int) : Double :=
  ofPattern (i < 0) (BinaryFormat.double.nearest i.natAbs 1)

/-- The double nearest to a finite single's shortest decimal. -/
def ofSingle (x : Single) : Double :=
  ofPattern x.negative (BinaryFormat.double.ofDecimal x.decimal.digits x.decimal.exponent)

def toSingle (x : Double) : Single :=
  Single.ofPattern x.negative (BinaryFormat.double.convert .single x.pattern)

/-- Equal as numbers: the two zeros are the same. -/
def sameNumber (x y : Double) : Bool :=
  x = y || (x.pattern = 0 && y.pattern = 0)

def decimal (x : Double) : Decimal :=
  if x.pattern = 0 then ⟨0, 0⟩ else BinaryFormat.double.shortest .even x.pattern

/-- Magnitudes from `1e-5` up to `1e16` are written positionally. -/
def layout : Layout := ⟨-5, 15, true⟩

def text (x : Double) : List Char :=
  (if x.negative then ['-'] else []) ++ layout.write x.decimal

end Double
end ShaderLift
