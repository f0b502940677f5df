import Mathlib
import ShaderLift.Numeral.Double

/-!
Rounding to a binary format. The numbers that round to a pattern are those up to halfway to its
neighbours, where the halves themselves belong to the even pattern.
-/

namespace ShaderLift.Numeral

theorem roundHalfEven_spec (num : Nat) {den : Nat} (hden : 0 < den) :
    2 * num ≤ (2 * roundHalfEven num den + 1) * den ∧
      2 * roundHalfEven num den * den ≤ 2 * num + den ∧
      (2 * num = (2 * roundHalfEven num den + 1) * den ∨
        2 * roundHalfEven num den * den = 2 * num + den → roundHalfEven num den % 2 = 0) := by
  have hnum := Nat.div_add_mod num den
  have hlt := Nat.mod_lt num hden
  simp only [roundHalfEven]
  generalize num / den = q at *
  generalize num % den = r at *
  have hdown : (2 * q + 1) * den = 2 * (den * q) + den := by ring
  have hdown' : 2 * q * den = 2 * (den * q) := by ring
  have hup : (2 * (q + 1) + 1) * den = 2 * (den * q) + 3 * den := by ring
  have hup' : 2 * (q + 1) * den = 2 * (den * q) + 2 * den := by ring
  split
  · omega
  · split
    · omega
    · split <;> omega

namespace BinaryFormat

variable {f : BinaryFormat}

theorem binade_eq (f : BinaryFormat) : f.binade = 2 ^ (f.precision - 1) := rfl

theorem binade_pos (f : BinaryFormat) : 0 < f.binade := Nat.two_pow_pos _

theorem binade_even (hf : 2 ≤ f.precision) : f.binade % 2 = 0 := by
  obtain ⟨k, hk⟩ : ∃ k, f.precision - 1 = k + 1 := ⟨f.precision - 2, by omega⟩
  rw [binade_eq, hk, Nat.pow_succ, Nat.mul_mod_left]

/-- The pattern `r` steps of `2 ^ s` above the start, in one binade or at its end. -/
theorem units_steps {s r : Nat} (hlow : s = 0 ∨ f.binade ≤ r) (hhigh : r ≤ 2 * f.binade) :
    f.units (s * f.binade + r) = r * 2 ^ s := by
  have hpos := f.binade_pos
  unfold units
  by_cases hr : r < f.binade
  · obtain rfl : s = 0 := by omega
    simp [hr]
  · have hge : ¬s * f.binade + r < f.binade := by
      have := Nat.zero_le (s * f.binade)
      omega
    rw [if_neg hge]
    by_cases htop : r = 2 * f.binade
    · have hk : s * f.binade + r = f.binade * (s + 2) := by rw [htop]; ring
      rw [hk, Nat.mul_mod_right, Nat.mul_div_cancel_left _ hpos, htop]
      simp only [Nat.pow_eq, Nat.add_zero, Nat.reduceSubDiff]
      ring
    · have hk : s * f.binade + r = (r - f.binade) + f.binade * (s + 1) := by
        have : f.binade * (s + 1) = s * f.binade + f.binade := by ring
        omega
      rw [hk, Nat.add_mul_mod_self_left, Nat.add_mul_div_left _ _ hpos,
        Nat.mod_eq_of_lt (by omega), Nat.div_eq_of_lt (by omega)]
      have hback : f.binade + (r - f.binade) = r := by omega
      simp [hback]

theorem exists_steps (f : BinaryFormat) (k : Nat) :
    ∃ s r, k = s * f.binade + r ∧ (s = 0 ∨ f.binade ≤ r) ∧ r < 2 * f.binade := by
  have hpos := f.binade_pos
  by_cases hk : k < f.binade
  · exact ⟨0, k, by simp, .inl rfl, by omega⟩
  · have hdiv : 0 < k / f.binade := Nat.div_pos (by omega) hpos
    have hmod := Nat.mod_lt k hpos
    have hsum := Nat.div_add_mod k f.binade
    obtain ⟨s, hs⟩ : ∃ s, k / f.binade = s + 1 := ⟨k / f.binade - 1, by omega⟩
    refine ⟨s, f.binade + k % f.binade, ?_, .inr (by omega), by omega⟩
    rw [hs] at hsum
    have : f.binade * (s + 1) = s * f.binade + f.binade := by ring
    omega

theorem units_lt_succ (f : BinaryFormat) (k : Nat) : f.units k < f.units (k + 1) := by
  obtain ⟨s, r, rfl, hlow, hr⟩ := f.exists_steps k
  rw [Nat.add_assoc, units_steps hlow (by omega), units_steps (by omega) (by omega)]
  exact Nat.mul_lt_mul_of_pos_right (by omega) (Nat.two_pow_pos s)

theorem units_strictMono (f : BinaryFormat) : StrictMono f.units :=
  strictMono_nat_of_lt_succ f.units_lt_succ

/-- The number `num / den` units rounds to the pattern. -/
def InCell (f : BinaryFormat) (pattern num den : Nat) : Prop :=
  let low := (f.units (pattern - 1) + f.units pattern) * den
  let high := (f.units pattern + f.units (pattern + 1)) * den
  low ≤ 2 * num ∧ 2 * num ≤ high ∧ (low = 2 * num ∨ 2 * num = high → pattern % 2 = 0)

theorem halfway_steps {s r : Nat} (hlow : s = 0 ∨ f.binade ≤ r) (hhigh : r ≤ 2 * f.binade) :
    (2 * r + 1) * 2 ^ s ≤ f.units (s * f.binade + r) + f.units (s * f.binade + r + 1) := by
  rw [units_steps hlow hhigh]
  by_cases htop : r = 2 * f.binade
  · have hk : s * f.binade + r + 1 = (s + 1) * f.binade + (f.binade + 1) := by rw [htop]; ring
    have hpos := f.binade_pos
    rw [hk, units_steps (.inr (by omega)) (by omega), htop, Nat.pow_succ]
    nlinarith [Nat.two_pow_pos s]
  · rw [Nat.add_assoc, units_steps (by omega) (by omega)]
    nlinarith [Nat.two_pow_pos s]

theorem halfway_below {s r : Nat} (hlow : s = 0 ∨ f.binade < r) (hr : 0 < r)
    (hhigh : r ≤ 2 * f.binade) :
    f.units (s * f.binade + r - 1) + f.units (s * f.binade + r) + 2 ^ s = 2 * r * 2 ^ s := by
  obtain ⟨r, rfl⟩ : ∃ k, r = k + 1 := ⟨r - 1, by omega⟩
  rw [units_steps (by omega) hhigh, show s * f.binade + (r + 1) - 1 = s * f.binade + r from rfl,
    units_steps (by omega) (by omega)]
  ring

theorem nearest_steps (hf : 2 ≤ f.precision) (num : Nat) {den : Nat} (hden : 0 < den) :
    let s := (num / den).log2 + 1 - f.precision
    let q := roundHalfEven num (den * 2 ^ s)
    q ≤ 2 * f.binade ∧ (s ≠ 0 → f.binade ≤ q ∧ f.binade * (den * 2 ^ s) ≤ num) := by
  intro s q
  have hstep : 0 < den * 2 ^ s := Nat.mul_pos hden (Nat.two_pow_pos s)
  have hspec := roundHalfEven_spec num hstep
  have hup : 2 * num ≤ (2 * q + 1) * (den * 2 ^ s) := hspec.1
  have hdown : 2 * q * (den * 2 ^ s) ≤ 2 * num + den * 2 ^ s := hspec.2.1
  have htwice : 2 * f.binade = 2 ^ f.precision := by
    rw [binade_eq, ← Nat.pow_succ', Nat.succ_eq_add_one, Nat.sub_add_cancel (by omega)]
  constructor
  · have hlt : num / den < 2 * f.binade * 2 ^ s := by
      have hself := Nat.lt_log2_self (n := num / den)
      rw [htwice, ← Nat.pow_add]
      exact hself.trans_le (Nat.pow_le_pow_right (by omega) (by omega))
    have hnum : num < 2 * f.binade * (den * 2 ^ s) := by
      have := (Nat.div_lt_iff_lt_mul hden).1 hlt
      calc num < 2 * f.binade * 2 ^ s * den := this
        _ = 2 * f.binade * (den * 2 ^ s) := by ring
    by_contra hq
    have hmul : (2 * f.binade + 1) * (den * 2 ^ s) ≤ q * (den * 2 ^ s) :=
      Nat.mul_le_mul_right _ (by omega)
    have hdouble : 2 * q * (den * 2 ^ s) = 2 * (q * (den * 2 ^ s)) := by ring
    have hexpand : (2 * f.binade + 1) * (den * 2 ^ s) =
        2 * f.binade * (den * 2 ^ s) + den * 2 ^ s := by ring
    omega
  · intro hs
    have hne : num / den ≠ 0 := by
      intro hzero
      simp [s, hzero] at hs
      omega
    have hge : f.binade * 2 ^ s ≤ num / den := by
      have hself := Nat.log2_self_le hne
      rw [binade_eq, ← Nat.pow_add]
      exact (Nat.pow_le_pow_right (by omega) (by omega)).trans hself
    have hnum : f.binade * (den * 2 ^ s) ≤ num := by
      calc f.binade * (den * 2 ^ s) = f.binade * 2 ^ s * den := by ring
        _ ≤ num / den * den := Nat.mul_le_mul_right _ hge
        _ ≤ num := Nat.div_mul_le_self num den
    refine ⟨?_, hnum⟩
    by_contra hq
    have hmul : (2 * q + 2) * (den * 2 ^ s) ≤ 2 * f.binade * (den * 2 ^ s) :=
      Nat.mul_le_mul_right _ (by omega)
    have hexpand : (2 * q + 2) * (den * 2 ^ s) =
        (2 * q + 1) * (den * 2 ^ s) + den * 2 ^ s := by ring
    have hdouble : 2 * f.binade * (den * 2 ^ s) = 2 * (f.binade * (den * 2 ^ s)) := by ring
    omega

/-- Rounding lands on the pattern whose cell holds the number, or at infinity before it. -/
theorem nearest_cell (hf : 2 ≤ f.precision) (num : Nat) {den : Nat} (hden : 0 < den) :
    ∃ k, f.nearest num den = min f.infinity k ∧ f.InCell k (num * 2 ^ f.scale) den := by
  have hsteps := nearest_steps hf (num * 2 ^ f.scale) hden
  refine ⟨_, rfl, ?_⟩
  simp only [Nat.pow_eq] at hsteps ⊢
  generalize hs : (num * 2 ^ f.scale / den).log2 + 1 - f.precision = s at hsteps ⊢
  generalize num * 2 ^ f.scale = N at hsteps ⊢
  have hstep : 0 < den * 2 ^ s := Nat.mul_pos hden (Nat.two_pow_pos s)
  obtain ⟨hup, hdown, heven⟩ := roundHalfEven_spec N hstep
  generalize roundHalfEven N (den * 2 ^ s) = q at *
  obtain ⟨hhigh, hlow⟩ := hsteps
  have hlow' : s = 0 ∨ f.binade ≤ q := by
    by_cases hzero : s = 0
    · exact .inl hzero
    · exact .inr (hlow hzero).1
  have hparity : (s * f.binade + q) % 2 = q % 2 := by
    have := binade_even hf
    rw [Nat.add_mod, Nat.mul_mod, this]
    simp
  have habove : (2 * q + 1) * (den * 2 ^ s) ≤
      (f.units (s * f.binade + q) + f.units (s * f.binade + q + 1)) * den := by
    calc (2 * q + 1) * (den * 2 ^ s) = (2 * q + 1) * 2 ^ s * den := by ring
      _ ≤ _ := Nat.mul_le_mul_right _ (halfway_steps hlow' hhigh)
  have hbelow : (f.units (s * f.binade + q - 1) + f.units (s * f.binade + q)) * den ≤ 2 * N ∧
      ((f.units (s * f.binade + q - 1) + f.units (s * f.binade + q)) * den = 2 * N →
        q % 2 = 0) := by
    by_cases hq : q = 0
    · obtain rfl : s = 0 := hlow'.resolve_right (by have := f.binade_pos; omega)
      have hzero : f.units 0 = 0 := by simp [units, f.binade_pos]
      simp [hq, hzero]
    · by_cases hedge : s ≠ 0 ∧ q = f.binade
      · -- the steps below the start of a binade are half as long
        have hmono : f.units (s * f.binade + q - 1) < f.units (s * f.binade + q) :=
          f.units_strictMono (by omega)
        have hunits := units_steps hlow' hhigh
        have hnum := (hlow hedge.1).2
        have hlt : (f.units (s * f.binade + q - 1) + f.units (s * f.binade + q)) * den <
            2 * (f.binade * (den * 2 ^ s)) := by
          calc _ < (f.units (s * f.binade + q) + f.units (s * f.binade + q)) * den :=
                Nat.mul_lt_mul_of_pos_right (by omega) hden
            _ = 2 * (q * 2 ^ s) * den := by rw [hunits]; ring
            _ = 2 * (f.binade * (den * 2 ^ s)) := by rw [hedge.2]; ring
        exact ⟨by omega, fun heq => by omega⟩
      · have hhalf := halfway_below (f := f) (s := s) (r := q) (by omega) (by omega) hhigh
        have hmul : (f.units (s * f.binade + q - 1) + f.units (s * f.binade + q)) * den +
            den * 2 ^ s = 2 * q * (den * 2 ^ s) := by
          calc _ = (f.units (s * f.binade + q - 1) + f.units (s * f.binade + q) + 2 ^ s) * den := by
                ring
            _ = 2 * q * (den * 2 ^ s) := by rw [hhalf]; ring
        refine ⟨by omega, fun heq => heven (.inr ?_)⟩
        omega
  refine ⟨hbelow.1, hup.trans habove, fun h => hparity.trans ?_⟩
  rcases h with h | h
  · exact hbelow.2 h
  · exact heven (.inl (Nat.le_antisymm hup (by omega)))

/-- Cells of different patterns have no number in common. -/
theorem InCell.unique {a b num den : Nat} (hden : 0 < den) (ha : f.InCell a num den)
    (hb : f.InCell b num den) : a = b := by
  have key : ∀ {a b}, a < b → f.InCell a num den → f.InCell b num den → False := by
    intro a b hab ha hb
    have hle : f.units (a + 1) ≤ f.units b := f.units_strictMono.monotone hab
    have hle' : f.units a ≤ f.units (b - 1) := f.units_strictMono.monotone (by omega)
    have hchain : (f.units a + f.units (a + 1)) * den ≤ (f.units (b - 1) + f.units b) * den :=
      Nat.mul_le_mul_right _ (by omega)
    have hequal : f.units a + f.units (a + 1) = f.units (b - 1) + f.units b := by
      refine Nat.eq_of_mul_eq_mul_right hden (Nat.le_antisymm hchain ?_)
      exact hb.1.trans ha.2.1
    have hnext : b = a + 1 := f.units_strictMono.injective (by omega)
    have haeven := ha.2.2 (.inr (Nat.le_antisymm ha.2.1 (hchain.trans hb.1)))
    have hbeven := hb.2.2 (.inl (Nat.le_antisymm hb.1 (ha.2.1.trans hchain)))
    omega
  rcases Nat.lt_trichotomy a b with hab | hab | hab
  · exact (key hab ha hb).elim
  · exact hab
  · exact (key hab hb ha).elim

theorem InCell.of_ratio {k a b c d : Nat} (hb : 0 < b) (hd : 0 < d) (h : a * d = c * b)
    (hcell : f.InCell k a b) : f.InCell k c d := by
  obtain ⟨hlow, hhigh, heven⟩ := hcell
  have hscale : 2 * c * b = 2 * a * d := by rw [Nat.mul_assoc, Nat.mul_assoc, h]
  refine ⟨?_, ?_, fun heq => heven ?_⟩
  · refine Nat.le_of_mul_le_mul_right ?_ hb
    calc _ = (f.units (k - 1) + f.units k) * b * d := by ring
      _ ≤ 2 * a * d := Nat.mul_le_mul_right d hlow
      _ = 2 * c * b := hscale.symm
  · refine Nat.le_of_mul_le_mul_right ?_ hb
    calc 2 * c * b = 2 * a * d := hscale
      _ ≤ (f.units k + f.units (k + 1)) * b * d := Nat.mul_le_mul_right d hhigh
      _ = _ := by ring
  · refine heq.imp (fun heq => ?_) fun heq => ?_
    · refine Nat.eq_of_mul_eq_mul_right hd ?_
      calc _ = (f.units (k - 1) + f.units k) * d * b := by ring
        _ = 2 * a * d := by rw [heq, hscale]
    · refine Nat.eq_of_mul_eq_mul_right hd ?_
      calc 2 * a * d = 2 * c * b := hscale.symm
        _ = _ := by rw [heq]; ring

theorem nearest_of_inCell (hf : 2 ≤ f.precision) {num den k : Nat} (hden : 0 < den)
    (hk : k ≤ f.infinity) (h : f.InCell k (num * 2 ^ f.scale) den) : f.nearest num den = k := by
  obtain ⟨k', hnearest, hcell⟩ := nearest_cell hf num hden
  obtain rfl := h.unique hden hcell
  rw [hnearest, Nat.min_eq_right hk]

/-- The formats whose patterns reach from well below one to well above it. -/
structure Regular (f : BinaryFormat) : Prop where
  digits : 2 ≤ f.precision
  exponents : 2 ≤ f.exponentBits
  balanced : f.precision ≤ 2 ^ (f.exponentBits - 1)

theorem single_regular : single.Regular := ⟨by decide, by decide, by decide⟩

theorem Regular.reach (hf : f.Regular) :
    2 ^ f.exponentBits = 2 * 2 ^ (f.exponentBits - 1) := by
  have := hf.exponents
  rw [← Nat.pow_succ', Nat.succ_eq_add_one, Nat.sub_add_cancel (by omega)]

theorem Regular.scale_add (hf : f.Regular) :
    f.scale + 2 ^ (f.exponentBits - 1) + 3 = 2 ^ f.exponentBits + f.precision := by
  have hreach := hf.reach
  have hpos := Nat.two_pow_pos (f.exponentBits - 1)
  have hdigits := hf.digits
  simp only [scale, Nat.pow_eq]
  omega

theorem units_infinity (hf : f.Regular) :
    f.units f.infinity = 2 ^ (2 ^ (f.exponentBits - 1)) * 2 ^ f.scale := by
  have hscale := hf.scale_add
  have hreach := hf.reach
  have hdigits := hf.digits
  have hpos := f.binade_pos
  have hexp : 2 ≤ 2 ^ (f.exponentBits - 1) :=
    Nat.le_self_pow (by have := hf.exponents; omega) 2
  have hinf : f.infinity = (2 ^ f.exponentBits - 2) * f.binade + f.binade := by
    rw [infinity, Nat.pow_eq, ← Nat.succ_mul]
    congr 1
    omega
  rw [hinf, units_steps (.inr (Nat.le_refl _)) (by omega), binade_eq, ← Nat.pow_add, ← Nat.pow_add]
  congr 1
  omega

/-- The number `digits * 10 ^ exponent` rounds to the pattern. -/
def DecimalInCell (f : BinaryFormat) (pattern digits : Nat) (exponent : Int) : Prop :=
  f.InCell pattern (digits * 10 ^ exponent.toNat * 2 ^ f.scale) (10 ^ (-exponent).toNat)

theorem reads_iff {pattern count : Nat} {exponent : Int} :
    f.reads pattern exponent count ↔ f.DecimalInCell pattern count exponent := by
  have hpoint : count * (2 ^ (f.scale + 1) * 10 ^ exponent.toNat) =
      2 * (count * 10 ^ exponent.toNat * 2 ^ f.scale) := by ring
  simp only [reads, DecimalInCell, InCell, Nat.pow_eq, hpoint]
  split
  · simp_all
  · next hodd =>
    simp only [Bool.and_eq_true, decide_eq_true_eq]
    omega

theorem units_pos {k : Nat} (hk : 0 < k) : 0 < f.units k :=
  Nat.zero_lt_of_lt (f.units_strictMono hk)

theorem DecimalInCell.digits_pos {k digits : Nat} {exponent : Int} (hk : 0 < k)
    (h : f.DecimalInCell k digits exponent) : digits ≠ 0 := by
  rintro rfl
  have hlow := h.1
  have hunits := f.units_pos hk
  have hden : 0 < 10 ^ (-exponent).toNat := Nat.pow_pos (by omega)
  have hprod : 0 < (f.units (k - 1) + f.units k) * 10 ^ (-exponent).toNat :=
    Nat.mul_pos (by omega) hden
  omega

theorem DecimalInCell.exponent_le (hf : f.Regular) {k digits : Nat} {exponent : Int}
    (hpos : 0 < k) (hk : k < f.infinity) (h : f.DecimalInCell k digits exponent) :
    exponent ≤ (2 ^ f.exponentBits : Nat) := by
  by_contra hlarge
  have hreachNonneg : (0 : Int) ≤ (2 ^ f.exponentBits : Nat) := Int.natCast_nonneg _
  obtain ⟨e, rfl⟩ : ∃ e : Nat, exponent = e := ⟨exponent.toNat, by omega⟩
  have hdigits := h.digits_pos hpos
  have hhigh : 2 * (digits * 10 ^ e * 2 ^ f.scale) ≤ f.units k + f.units (k + 1) := by
    simpa [DecimalInCell] using h.2.1
  have hunits : f.units k ≤ f.units f.infinity := f.units_strictMono.monotone (by omega)
  have hunits' : f.units (k + 1) ≤ f.units f.infinity := f.units_strictMono.monotone hk
  rw [units_infinity hf] at hunits hunits'
  have hpow : 10 ^ e * 2 ^ f.scale ≤ 2 ^ 2 ^ (f.exponentBits - 1) * 2 ^ f.scale := by
    calc 10 ^ e * 2 ^ f.scale ≤ digits * (10 ^ e * 2 ^ f.scale) :=
          Nat.le_mul_of_pos_left _ (by omega)
      _ = digits * 10 ^ e * 2 ^ f.scale := by ring
      _ ≤ _ := by omega
  have hle : 10 ^ e ≤ 2 ^ 2 ^ (f.exponentBits - 1) :=
    Nat.le_of_mul_le_mul_right hpow (Nat.two_pow_pos _)
  have hreach := hf.reach
  have hlt : 2 ^ 2 ^ (f.exponentBits - 1) < 2 ^ e := Nat.pow_lt_pow_right (by omega) (by omega)
  have hbase : 2 ^ e ≤ 10 ^ e := Nat.pow_le_pow_left (by omega) e
  omega

theorem DecimalInCell.exponent_ge (hf : f.Regular) {k digits : Nat} {exponent : Int}
    (hpos : 0 < k) (h : f.DecimalInCell k digits exponent) :
    -(2 ^ f.exponentBits : Nat) ≤ exponent + digits.log2 + 1 := by
  by_contra hsmall
  have hreachNonneg : (0 : Int) ≤ (2 ^ f.exponentBits : Nat) := Int.natCast_nonneg _
  obtain ⟨m, rfl⟩ : ∃ m : Nat, exponent = -m := ⟨(-exponent).toNat, by omega⟩
  have hlow : (f.units (k - 1) + f.units k) * 10 ^ m ≤ 2 * (digits * 2 ^ f.scale) := by
    simpa [DecimalInCell] using h.1
  have hunits := f.units_pos hpos
  have hten : 10 ^ m ≤ (f.units (k - 1) + f.units k) * 10 ^ m :=
    Nat.le_mul_of_pos_left _ (by omega)
  have hdigits : digits * 2 ^ f.scale < 2 ^ (digits.log2 + 1) * 2 ^ f.scale :=
    Nat.mul_lt_mul_of_pos_right Nat.lt_log2_self (Nat.two_pow_pos _)
  rw [← Nat.pow_add] at hdigits
  have hscale := hf.scale_add
  have hreach := hf.reach
  have hbalanced := hf.balanced
  have hpow : 2 ^ (digits.log2 + 1 + f.scale + 1) ≤ 2 ^ m := Nat.pow_le_pow_right (by omega) (by omega)
  have hbase : 2 ^ m ≤ 10 ^ m := Nat.pow_le_pow_left (by omega) m
  rw [Nat.pow_succ] at hpow
  omega

/-- Reading a decimal gives the pattern in whose cell it lies. -/
theorem ofDecimal_of_cell (hf : f.Regular) {k digits : Nat} {exponent : Int} (hpos : 0 < k)
    (hk : k < f.infinity) (h : f.DecimalInCell k digits exponent) :
    f.ofDecimal digits exponent = k := by
  have hlarge := h.exponent_le hf hpos hk
  have hsmall := h.exponent_ge hf hpos
  simp only [ofDecimal, Nat.pow_eq]
  rw [if_neg (h.digits_pos hpos), if_neg (by omega), if_neg (by omega)]
  split
  · next hge =>
    refine nearest_of_inCell hf.digits Nat.one_pos (by omega) ?_
    simpa [DecimalInCell, Int.toNat_of_nonpos (show -exponent ≤ 0 by omega)] using h
  · next hneg =>
    refine nearest_of_inCell hf.digits (Nat.pow_pos (by omega)) (by omega) ?_
    simpa [DecimalInCell, Int.toNat_of_nonpos (show exponent ≤ 0 by omega)] using h

/-- A whole number lies in the same cell when its last digit is written after a point. -/
theorem DecimalInCell.tenfold {k digits e : Nat} (h : f.DecimalInCell k digits e) :
    f.DecimalInCell k (digits * 10 ^ (e + 1)) (-1) := by
  refine InCell.of_ratio (Nat.pow_pos (by omega)) (Nat.pow_pos (by omega)) ?_ h
  simp [Nat.pow_succ]
  ring

theorem ofDecimal_le (f : BinaryFormat) (digits : Nat) (exponent : Int) :
    f.ofDecimal digits exponent ≤ f.infinity := by
  simp only [ofDecimal]
  split
  · omega
  · split
    · omega
    · split
      · omega
      · split <;> exact Nat.min_le_left _ _

theorem candidate_reads {tie : Tie} {pattern digits : Nat} {exponent : Int}
    (h : f.candidate tie pattern exponent = some digits) : f.reads pattern exponent digits := by
  simp only [candidate] at h
  split at h
  · next hbelow habove =>
    split at h
    · exact Option.some.inj h ▸ hbelow
    · split at h
      · exact Option.some.inj h ▸ habove
      · obtain rfl := Option.some.inj h
        cases tie with
        | up => exact habove
        | even =>
          simp only [Tie.choose]
          split
          · exact hbelow
          · exact habove
  · next hbelow _ => exact Option.some.inj h ▸ hbelow
  · next _ habove => exact Option.some.inj h ▸ habove
  · simp at h

theorem candidate_scale (tie : Tie) {pattern : Nat} (hpos : 0 < pattern) :
    f.candidate tie pattern (-f.scale) ≠ none := by
  have hexact : f.units pattern * 10 ^ f.scale = f.units pattern * 5 ^ f.scale * 2 ^ f.scale := by
    rw [show 10 = 5 * 2 from rfl, Nat.mul_pow]
    ring
  have hbelow : f.units (pattern - 1) < f.units pattern := f.units_strictMono (by omega)
  have habove := f.units_lt_succ pattern
  have hten : 0 < 10 ^ f.scale := Nat.pow_pos (by omega)
  have hlow := Nat.mul_lt_mul_of_pos_right (Nat.add_lt_add_right hbelow (f.units pattern)) hten
  have hhigh := Nat.mul_lt_mul_of_pos_right (Nat.add_lt_add_left habove (f.units pattern)) hten
  have htwice : (f.units pattern + f.units pattern) * 10 ^ f.scale =
      2 * (f.units pattern * 5 ^ f.scale * 2 ^ f.scale) := by rw [← hexact]; ring
  have hreads : f.reads pattern (-f.scale) (f.units pattern * 5 ^ f.scale) := by
    rw [reads_iff]
    simp only [DecimalInCell, InCell, Int.neg_neg, Int.toNat_natCast, Int.toNat_neg_natCast,
      Nat.pow_zero, Nat.mul_one]
    omega
  have hvalue : 2 * f.units pattern * 10 ^ f.scale / 2 ^ (f.scale + 1) =
      f.units pattern * 5 ^ f.scale := by
    rw [Nat.mul_assoc, hexact, Nat.pow_succ', ← Nat.mul_assoc, Nat.mul_comm 2 (_ * _),
      Nat.mul_assoc, Nat.mul_div_cancel _ (Nat.mul_pos (by omega) (Nat.two_pow_pos _))]
  simp only [candidate, Int.neg_neg, Int.toNat_natCast, Int.toNat_neg_natCast, Nat.pow_eq,
    Nat.pow_zero, Nat.mul_one, hvalue, hreads]
  cases f.reads pattern (-f.scale) (f.units pattern * 5 ^ f.scale + 1) with
  | false => simp
  | true => simp only; split_ifs <;> simp

theorem candidateFrom_reads (tie : Tie) {pattern fuel : Nat} {exponent : Int}
    (hpos : 0 < pattern) (hstart : -f.scale ≤ exponent) (hfuel : exponent + f.scale < fuel) :
    let d := f.candidateFrom tie pattern fuel exponent
    f.reads pattern d.exponent d.digits := by
  induction fuel generalizing exponent with
  | zero => omega
  | succ fuel ih =>
    simp only [candidateFrom]
    split
    · next digits hcandidate => exact candidate_reads hcandidate
    · next hnone =>
      have hne : exponent ≠ -f.scale := by
        rintro rfl
        exact candidate_scale tie hpos hnone
      exact ih (by omega) (by omega)

/-- The shortest decimal of a pattern is nearer to it than to any other. -/
theorem shortest_inCell (tie : Tie) {pattern : Nat} (hpos : 0 < pattern) :
    f.DecimalInCell pattern (f.shortest tie pattern).digits (f.shortest tie pattern).exponent :=
  reads_iff.1 (candidateFrom_reads tie hpos (by omega) (by push_cast; omega))

theorem nearest_le (hf : 2 ≤ f.precision) {num den m : Nat} (hden : 0 < den)
    (h : num * 2 ^ f.scale ≤ f.units m * den) : f.nearest num den ≤ m := by
  obtain ⟨k, hnearest, hlow, -⟩ := nearest_cell hf num hden
  rw [hnearest]
  by_contra hlt
  have hk : m < k := by omega
  have hbelow : f.units m ≤ f.units (k - 1) := f.units_strictMono.monotone (by omega)
  have hself : f.units m < f.units k := f.units_strictMono hk
  have hsum : 2 * f.units m < f.units (k - 1) + f.units k := by omega
  have hlarge := Nat.mul_lt_mul_of_pos_right hsum hden
  rw [Nat.mul_assoc] at hlarge
  omega

theorem convert_le {g : BinaryFormat} (hg : 2 ≤ g.precision) {x m k : Nat}
    (h : f.units m * 2 ^ g.scale ≤ g.units k * 2 ^ f.scale) (hx : x ≤ m) : f.convert g x ≤ k := by
  have hunits : f.units x ≤ f.units m := f.units_strictMono.monotone hx
  exact nearest_le hg (Nat.two_pow_pos f.scale) ((Nat.mul_le_mul_right _ hunits).trans h)

theorem ofDecimal_le_of_le (hf : 2 ≤ f.precision) {digits m : Nat} {exponent : Int}
    (hexponent : exponent ≤ (2 ^ f.exponentBits : Nat))
    (h : digits * 10 ^ exponent.toNat * 2 ^ f.scale ≤ f.units m * 10 ^ (-exponent).toNat) :
    f.ofDecimal digits exponent ≤ m := by
  simp only [ofDecimal, Nat.pow_eq]
  split
  · exact Nat.zero_le _
  · rw [if_neg (by omega)]
    split
    · exact Nat.zero_le _
    · split
      · next hpos =>
        have hzero : (-exponent).toNat = 0 := by omega
        rw [hzero] at h
        exact nearest_le hf (by omega) (by simpa using h)
      · next hneg =>
        have hzero : exponent.toNat = 0 := by omega
        rw [hzero] at h
        exact nearest_le hf (Nat.pow_pos (by omega)) (by simpa using h)

end BinaryFormat
end ShaderLift.Numeral
