import ShaderLift.Numeral.Binary
import ShaderLift.Numeral.Digits

/-!
The decimal with the fewest digits that reads back as a given pattern, and its text. The numbers
that round to a pattern form an interval around it; the fewest digits belong to the largest
power of ten with a multiple inside. Of two such multiples the nearer one is taken.
-/

namespace ShaderLift.Numeral

/-- The number `digits * 10 ^ exponent`. -/
structure Decimal where
  digits : Nat
  exponent : Int
  deriving DecidableEq, Repr

/-- Where a value halfway between two candidates goes. -/
inductive Tie where
  | up
  | even
  deriving DecidableEq, Repr

def Tie.choose (tie : Tie) (below : Nat) : Nat :=
  match tie with
  | .up => below + 1
  | .even => if below % 2 = 0 then below else below + 1

namespace BinaryFormat

/-- Whether `count * 10 ^ exponent` rounds to `pattern`. The ends of the interval are halfway to
the neighbouring patterns and belong to the even one of the two. -/
def reads (f : BinaryFormat) (pattern : Nat) (exponent : Int) (count : Nat) : Bool :=
  let up := Nat.pow 10 (-exponent).toNat
  let point := count * (Nat.pow 2 (f.scale + 1) * Nat.pow 10 exponent.toNat)
  let low := (f.units (pattern - 1) + f.units pattern) * up
  let high := (f.units pattern + f.units (pattern + 1)) * up
  if pattern % 2 = 0 then low ≤ point && point ≤ high else low < point && point < high

/-- The multiple of `10 ^ exponent` nearest to the pattern's number among those that read back. -/
def candidate (f : BinaryFormat) (tie : Tie) (pattern : Nat) (exponent : Int) : Option Nat :=
  let value := 2 * f.units pattern * Nat.pow 10 (-exponent).toNat
  let step := Nat.pow 2 (f.scale + 1) * Nat.pow 10 exponent.toNat
  let below := value / step
  let rest := 2 * (value % step)
  match f.reads pattern exponent below, f.reads pattern exponent (below + 1) with
  | true, true =>
    if rest < step then some below
    else if step < rest then some (below + 1)
    else some (tie.choose below)
  | true, false => some below
  | false, true => some (below + 1)
  | false, false => none

/-- The first candidate from `exponent` downwards, within `fuel` steps. -/
def candidateFrom (f : BinaryFormat) (tie : Tie) (pattern : Nat) : Nat → Int → Decimal
  | 0, exponent => ⟨0, exponent⟩
  | fuel + 1, exponent =>
    match f.candidate tie pattern exponent with
    | some digits => ⟨digits, exponent⟩
    | none => f.candidateFrom tie pattern fuel (exponent - 1)

/-- The shortest decimal of a pattern other than zero. The search starts at a power of ten above
the interval and ends at `10 ^ -scale` at the latest, of which the number itself is a multiple. -/
def shortest (f : BinaryFormat) (tie : Tie) (pattern : Nat) : Decimal :=
  let top := (f.units (pattern + 1) / Nat.pow 2 f.scale).log2 + 1
  f.candidateFrom tie pattern (top + f.scale + 1) top

end BinaryFormat

/-- How a decimal is laid out: the scientific exponents that are written positionally, and
whether a positive exponent has a sign. -/
structure Layout where
  least : Int
  greatest : Int
  plus : Bool
  deriving DecidableEq, Repr

/-- Digits with a point put in, always with a digit on either side of it. -/
def positional (digits : List Char) (exponent : Int) : List Char :=
  let places := (-exponent).toNat
  if 0 ≤ exponent then
    digits ++ List.replicate exponent.toNat '0' ++ ['.', '0']
  else if places < digits.length then
    digits.take (digits.length - places) ++ '.' :: digits.drop (digits.length - places)
  else
    '0' :: '.' :: List.replicate (places - digits.length) '0' ++ digits

/-- One digit before the point, and no point where no digit follows. -/
def scientific (plus : Bool) (digits : List Char) (exponent : Int) : List Char :=
  let mark := if plus && 0 ≤ exponent then ['e', '+'] else ['e']
  match digits with
  | [] => []
  | [c] => c :: mark ++ integer exponent
  | c :: rest => c :: '.' :: rest ++ mark ++ integer exponent

def Layout.write (layout : Layout) (d : Decimal) : List Char :=
  let digits := decimal d.digits
  let exponent := d.exponent + digits.length - 1
  if layout.least ≤ exponent && exponent ≤ layout.greatest then positional digits d.exponent
  else scientific layout.plus digits exponent

end ShaderLift.Numeral
