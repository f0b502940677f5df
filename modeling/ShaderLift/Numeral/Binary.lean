/-!
Binary floating point by bit patterns. A pattern without its sign bit is a natural number, and
the patterns below `infinity` are the non-negative finite numbers in increasing order. Every
such number is a whole multiple of one unit, `2 ^ -scale`, so rounding and comparing need
natural numbers only.
-/

namespace ShaderLift.Numeral

/-- `num / den` rounded to the nearest natural number, a half going to the even neighbour. -/
def roundHalfEven (num den : Nat) : Nat :=
  let quotient := num / den
  let rest := 2 * (num % den)
  if rest < den then quotient
  else if den < rest then quotient + 1
  else if quotient % 2 = 0 then quotient
  else quotient + 1

structure BinaryFormat where
  /-- Bits of the significand, the leading one counted. -/
  precision : Nat
  exponentBits : Nat
  deriving DecidableEq, Repr

namespace BinaryFormat

def single : BinaryFormat := ⟨24, 8⟩

def double : BinaryFormat := ⟨53, 11⟩

/-- The number of patterns that share one exponent. -/
def binade (f : BinaryFormat) : Nat := Nat.pow 2 (f.precision - 1)

/-- Pattern 1 denotes `2 ^ -scale`. -/
def scale (f : BinaryFormat) : Nat := Nat.pow 2 (f.exponentBits - 1) + f.precision - 3

def infinity (f : BinaryFormat) : Nat := (Nat.pow 2 f.exponentBits - 1) * f.binade

def signBit (f : BinaryFormat) : Nat := Nat.pow 2 f.exponentBits * f.binade

/-- The number that a pattern denotes, counted in units. -/
def units (f : BinaryFormat) (pattern : Nat) : Nat :=
  if pattern < f.binade then pattern
  else (f.binade + pattern % f.binade) * Nat.pow 2 (pattern / f.binade - 1)

/-- The pattern nearest to `num / den`, a half going to the even pattern. -/
def nearest (f : BinaryFormat) (num den : Nat) : Nat :=
  let scaled := num * Nat.pow 2 f.scale
  let shift := (scaled / den).log2 + 1 - f.precision
  min f.infinity (shift * f.binade + roundHalfEven scaled (den * Nat.pow 2 shift))

/-- The pattern nearest to `digits * 10 ^ exponent`. Beyond `10 ^ (2 ^ exponentBits)` on either
side the answer is known without computing the power. -/
def ofDecimal (f : BinaryFormat) (digits : Nat) (exponent : Int) : Nat :=
  let reach : Int := Nat.pow 2 f.exponentBits
  if digits = 0 then 0
  else if reach < exponent then f.infinity
  else if exponent + digits.log2 + 1 < -reach then 0
  else if 0 ≤ exponent then f.nearest (digits * Nat.pow 10 exponent.toNat) 1
  else f.nearest digits (Nat.pow 10 (-exponent).toNat)

/-- The pattern of `g` nearest to the number that `pattern` denotes in `f`. -/
def convert (f g : BinaryFormat) (pattern : Nat) : Nat :=
  g.nearest (f.units pattern) (Nat.pow 2 f.scale)

/-- The pattern nearest to the product of two patterns' numbers. -/
def product (f : BinaryFormat) (a b : Nat) : Nat :=
  f.nearest (f.units a * f.units b) (Nat.pow 2 f.scale * Nat.pow 2 f.scale)

/-- The pattern nearest to the quotient of two patterns' numbers. -/
def quotient (f : BinaryFormat) (a b : Nat) : Nat :=
  f.nearest (f.units a) (f.units b)

end BinaryFormat
end ShaderLift.Numeral
