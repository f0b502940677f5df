import Mathlib
import ShaderLift.Proofs.Rounding

/-!
Decimals that lie almost halfway between two singles. A multiple of a power of ten and an odd multiple
of a power of two that nearly agree make a fraction that nearly is the quotient of the powers. Two
fractions around that quotient with large denominators show that there is no such agreement, apart
from the two fractions themselves.
-/

namespace ShaderLift.Numeral

/-- The fractions `p / q` and `p' / q'`. -/
structure Bracket where
  p : Nat
  q : Nat
  p' : Nat
  q' : Nat
  deriving DecidableEq, Repr

namespace Bracket

/-- Neighbours around `a / b`: no fraction in between has a smaller denominator than theirs have
together. -/
structure Encloses (w : Bracket) (a b : Nat) : Prop where
  neighbours : w.p' * w.q = w.p * w.q' + 1
  below : w.p * b ≤ a * w.q
  above : a * w.q' ≤ w.p' * b

instance (w : Bracket) (a b : Nat) : Decidable (w.Encloses a b) :=
  decidable_of_iff (w.p' * w.q = w.p * w.q' + 1 ∧ w.p * b ≤ a * w.q ∧ a * w.q' ≤ w.p' * b)
    ⟨fun h => ⟨h.1, h.2.1, h.2.2⟩, fun h => ⟨h.neighbours, h.below, h.above⟩⟩

/-- How far `a / b` is from the fractions, times `b` and the fraction's denominator. -/
def gap (w : Bracket) (a b : Nat) : Nat := a * w.q - w.p * b

def gap' (w : Bracket) (a b : Nat) : Nat := w.p' * b - a * w.q'

/-- Of two distances one is too long to be taken at all, and the other is taken alone. -/
theorem single_distance {x y δ δ' limit : Nat} (hx : 0 < x) (hpos : x * δ + y * δ' ≠ 0)
    (hsum : x * δ + y * δ' ≤ limit) (hfar : limit < δ ∨ limit < δ') :
    y = 0 ∧ 0 < δ ∧ δ ≤ limit := by
  have hδ : δ ≤ x * δ := Nat.le_mul_of_pos_left δ hx
  have hy : y = 0 := by
    by_contra hy
    have hδ' : δ' ≤ y * δ' := Nat.le_mul_of_pos_left δ' (Nat.pos_of_ne_zero hy)
    omega
  subst hy
  refine ⟨rfl, Nat.pos_of_ne_zero fun hzero => hpos ?_, by omega⟩
  simp [hzero]

/-- What is near `a / b` and has a small denominator is one of the fractions, perhaps not in lowest
terms, as long as one of them is far enough away. -/
theorem Encloses.near {w : Bracket} {a b c n limit : Nat} (h : w.Encloses a b) (hpos : 0 < c)
    (hc : c < w.q + w.q') (hne : c * a ≠ n * b) (hlow : n * b ≤ c * a + limit)
    (hhigh : c * a ≤ n * b + limit) (hfar : limit < w.gap a b ∨ limit < w.gap' a b) :
    (∃ x, n = x * w.p ∧ 0 < w.gap a b ∧ w.gap a b ≤ limit) ∨
      ∃ x, n = x * w.p' ∧ 0 < w.gap' a b ∧ w.gap' a b ≤ limit := by
  obtain ⟨hdet, hbelow, habove⟩ := h
  have hδ : (w.gap a b : Int) = a * w.q - w.p * b := by
    rw [gap, Nat.cast_sub hbelow]
    push_cast
    rfl
  have hδ' : (w.gap' a b : Int) = w.p' * b - a * w.q' := by
    rw [gap', Nat.cast_sub habove]
    push_cast
    rfl
  generalize w.gap a b = δ at *
  generalize w.gap' a b = δ' at *
  obtain ⟨p, q, p', q'⟩ := w
  simp only at *
  -- the coordinates of `n / c` with respect to the two fractions
  obtain ⟨x, hx⟩ : ∃ x : Int, x = c * p' - n * q' := ⟨_, rfl⟩
  obtain ⟨y, hy⟩ : ∃ y : Int, y = n * q - c * p := ⟨_, rfl⟩
  zify at hdet
  have hcx : (c : Int) = x * q + y * q' := by rw [hx, hy]; linear_combination (-c : Int) * hdet
  have hnx : (n : Int) = x * p + y * p' := by rw [hx, hy]; linear_combination (-n : Int) * hdet
  have hdist : (c : Int) * a - n * b = x * δ - y * δ' := by
    rw [hcx, hnx, hδ, hδ']
    ring
  clear hx hy hδ hδ'
  rcases lt_or_ge 0 x with hx | hx <;> rcases lt_or_ge 0 y with hy | hy
  · -- both positive: the denominator is at least the sum
    nlinarith
  · obtain ⟨X, rfl⟩ : ∃ X : Nat, x = X := ⟨x.toNat, by omega⟩
    obtain ⟨Y, rfl⟩ : ∃ Y : Nat, y = -Y := ⟨(-y).toNat, by omega⟩
    have hsum : c * a = n * b + (X * δ + Y * δ') := by
      zify
      linear_combination hdist
    have hsome : X * δ + Y * δ' ≠ 0 := by omega
    have hle : X * δ + Y * δ' ≤ limit := by omega
    obtain ⟨rfl, hδ⟩ := single_distance (Int.natCast_pos.1 hx) hsome hle hfar
    refine .inl ⟨X, ?_, hδ⟩
    zify
    linear_combination hnx
  · obtain ⟨X, rfl⟩ : ∃ X : Nat, x = -X := ⟨(-x).toNat, by omega⟩
    obtain ⟨Y, rfl⟩ : ∃ Y : Nat, y = Y := ⟨y.toNat, by omega⟩
    have hsum : n * b = c * a + (Y * δ' + X * δ) := by
      zify
      linear_combination -hdist
    have hsome : Y * δ' + X * δ ≠ 0 := by omega
    have hle : Y * δ' + X * δ ≤ limit := by omega
    obtain ⟨rfl, hδ'⟩ := single_distance (Int.natCast_pos.1 hy) hsome hle hfar.symm
    refine .inr ⟨Y, ?_, hδ'⟩
    zify
    linear_combination hnx
  · -- neither positive: so is not the denominator
    nlinarith

/-- How many steps of `q'` are to be added to `q`: as many as fit a distance, and no more than it takes
to leave the bound. -/
def steps (bound q q' far near : Nat) : Nat :=
  if bound < q + q' then 0
  else
    let most := (bound - q) / q' + 1
    if near = 0 then most else min (far / near) most

/-- Brings the fractions closer to `a / b`, in turns, until their denominators exceed the bound. -/
def narrow (a b bound : Nat) : Nat → Bracket → Bracket
  | 0, w => w
  | fuel + 1, w =>
    let t := steps bound w.q w.q' (w.gap a b) (w.gap' a b)
    let w : Bracket := { w with p := w.p + t * w.p', q := w.q + t * w.q' }
    let t' := steps bound w.q' w.q (w.gap' a b) (w.gap a b)
    narrow a b bound fuel { w with p' := w.p' + t' * w.p, q' := w.q' + t' * w.q }

end Bracket

namespace BinaryFormat

/-- What becomes of a single that is written as its shortest decimal, read as a double, and rounded to
a single again. -/
def recoded (pattern : Nat) : Nat :=
  let d := single.shortest .up pattern
  double.convert single (double.ofDecimal d.digits d.exponent)

/-- The only single that comes back as another: its shortest decimal is so close to halfway that the
nearest double is halfway. -/
def lostPattern : Nat := 0x15ae43fd

/-- The odd one of the two patterns that `n` half distances lie between. -/
def oddPattern (s n : Nat) : Nat := s * 2 ^ 23 + (2 * (n / 4) + 1)

/-- The pattern beside `n` half distances comes back, or is the one that is lost. -/
def Returns (s n : Nat) : Prop :=
  recoded (oddPattern s n) = oddPattern s n ∨ oddPattern s n = lostPattern

instance (s n : Nat) : Decidable (Returns s n) := inferInstanceAs (Decidable (_ ∨ _))

/-- A fraction that is near does no harm if its numerator is even. Else it may have no other odd
multiple in the range, and has to be below that itself or to belong to a pattern that comes back. -/
def Harmless (s limit p gap : Nat) : Prop :=
  gap = 0 ∨ limit < gap ∨ p % 2 = 0 ∨ 2 ^ 25 ≤ 3 * p ∧ (0 < s ∧ p < 2 ^ 24 ∨ Returns s p)

instance (s limit p gap : Nat) : Decidable (Harmless s limit p gap) :=
  inferInstanceAs (Decidable (_ ∨ _ ∨ _ ∨ _ ∧ _))

theorem Harmless.returns {s limit p gap x : Nat} (h : Harmless s limit p gap) (hpos : 0 < gap)
    (hle : gap ≤ limit) (hodd : x * p % 2 = 1) (hlow : 0 < s → 2 ^ 24 ≤ x * p)
    (hhigh : x * p < 2 ^ 25) : Returns s (x * p) := by
  obtain ⟨hx, hp⟩ := Nat.odd_mul.1 (Nat.odd_iff.2 hodd)
  rw [Nat.odd_iff] at hx hp
  rcases h with hgap | hgap | heven | ⟨hthree, hone⟩
  · omega
  · omega
  · omega
  · obtain rfl : x = 1 := by
      have hlt : x < 3 := by
        by_contra hge
        have := Nat.mul_le_mul_right p (Nat.not_lt.1 hge)
        omega
      omega
    rw [Nat.one_mul] at hlow ⊢
    rcases hone with ⟨hs, hsmall⟩ | hreturns
    · have := hlow hs
      omega
    · exact hreturns

/-- The fractions around `a / b` rule out all decimals near halfway whose patterns do not return: the
limit is the distance of doubles there. -/
structure Clears (w : Bracket) (s a b : Nat) : Prop where
  encloses : w.Encloses a b
  wide : 2 ^ 25 * b / a < w.q + w.q'
  far : b / 2 ^ 29 < w.gap a b ∨ b / 2 ^ 29 < w.gap' a b
  lower : Harmless s (b / 2 ^ 29) w.p (w.gap a b)
  upper : Harmless s (b / 2 ^ 29) w.p' (w.gap' a b)

instance (w : Bracket) (s a b : Nat) : Decidable (Clears w s a b) :=
  decidable_of_iff (w.Encloses a b ∧ 2 ^ 25 * b / a < w.q + w.q' ∧
      (b / 2 ^ 29 < w.gap a b ∨ b / 2 ^ 29 < w.gap' a b) ∧
      Harmless s (b / 2 ^ 29) w.p (w.gap a b) ∧ Harmless s (b / 2 ^ 29) w.p' (w.gap' a b))
    ⟨fun h => ⟨h.1, h.2.1, h.2.2.1, h.2.2.2.1, h.2.2.2.2⟩,
      fun h => ⟨h.encloses, h.wide, h.far, h.lower, h.upper⟩⟩

theorem Clears.returns {w : Bracket} {s a b c n : Nat} (h : Clears w s a b) (ha : 0 < a)
    (hc : 0 < c) (hodd : n % 2 = 1) (hlow : 0 < s → 2 ^ 24 ≤ n) (hhigh : n < 2 ^ 25)
    (hne : c * a ≠ n * b) (hbelow : 2 ^ 29 * (n * b) ≤ 2 ^ 29 * (c * a) + b)
    (habove : 2 ^ 29 * (c * a) ≤ 2 ^ 29 * (n * b) + b) : Returns s n := by
  have hsmall : c ≤ 2 ^ 25 * b / a := by
    refine (Nat.le_div_iff_mul_le ha).2 ?_
    have hstep : (n + 1) * b ≤ 2 ^ 25 * b := Nat.mul_le_mul_right _ hhigh
    rw [Nat.succ_mul] at hstep
    omega
  rcases h.encloses.near hc (hsmall.trans_lt h.wide) hne (by omega) (by omega) h.far with
    ⟨x, rfl, hpos, hle⟩ | ⟨x, rfl, hpos, hle⟩
  · exact h.lower.returns hpos hle hodd hlow hhigh
  · exact h.upper.returns hpos hle hodd hlow hhigh

/-- A power of ten that is smaller than the distance of singles in the binade. -/
def grid (s : Nat) : Int := (301 * ((s : Int) - 149) - 1) / 1000

/-- The quotient of the power of ten and half that distance, as a fraction. -/
def gridNum (s : Nat) : Nat := 10 ^ (grid s).toNat * 2 ^ 150

def gridDen (s : Nat) : Nat := 10 ^ (-grid s).toNat * 2 ^ s

def gridFractions (s : Nat) : Bracket :=
  Bracket.narrow (gridNum s) (gridDen s) (2 ^ 25 * gridDen s / gridNum s) 20 ⟨0, 1, 1, 0⟩

theorem grid_lt : ∀ s < 254, 10 ^ (grid s).toNat * 2 ^ 149 < 2 ^ s * 10 ^ (-grid s).toNat := by
  decide +kernel

theorem gridFractions_clear : ∀ s < 254, Clears (gridFractions s) s (gridNum s) (gridDen s) := by
  decide +kernel

end BinaryFormat
end ShaderLift.Numeral
