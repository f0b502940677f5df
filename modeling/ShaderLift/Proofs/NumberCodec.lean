import Mathlib
import ShaderLift.Proofs.ArrayContents
import ShaderLift.Proofs.Halfway
import ShaderLift.Proofs.NumeralText

/-!
Writing numbers into metadata and reading them back. A single is written as the double nearest to its
shortest decimal. Doubles are dense enough for the number to stay between the halfway numbers around
the single, and with one exception up to sign it does not come to lie on one of these.
-/

namespace ShaderLift.Numeral.BinaryFormat

variable {f : BinaryFormat}

theorem units_succ_le {p t : Nat} (h : f.units p < 2 * f.binade * 2 ^ t) :
    f.units (p + 1) ≤ f.units p + 2 ^ t := by
  obtain ⟨s, r, rfl, hlow, hr⟩ := f.exists_steps p
  rw [units_steps hlow (by omega)] at h
  have hst : s ≤ t := by
    by_contra hlt
    have hpow : 2 ^ (t + 1) ≤ 2 ^ s := Nat.pow_le_pow_right (by omega) (by omega)
    have hsteps : f.binade ≤ r := hlow.resolve_left (by omega)
    have hle := Nat.mul_le_mul hsteps hpow
    rw [Nat.pow_succ'] at hle
    have hsame : f.binade * (2 * 2 ^ t) = 2 * f.binade * 2 ^ t := by ring
    omega
  have hpow : 2 ^ s ≤ 2 ^ t := Nat.pow_le_pow_right (by omega) hst
  rw [Nat.add_assoc, units_steps hlow (by omega), units_steps (by omega) (by omega), Nat.succ_mul]
  omega

theorem exists_units {m : Nat} (hm : m ≤ 2 * f.binade) (j : Nat) : ∃ p, f.units p = m * 2 ^ j := by
  induction j generalizing m with
  | zero =>
    refine ⟨m, ?_⟩
    simpa using units_steps (f := f) (s := 0) (.inl rfl) hm
  | succ j ih =>
    by_cases hsmall : m ≤ f.binade
    · obtain ⟨p, hp⟩ := ih (m := 2 * m) (by omega)
      exact ⟨p, by rw [hp, Nat.pow_succ]; ring⟩
    · exact ⟨(j + 1) * f.binade + m, units_steps (.inr (by omega)) hm⟩

theorem InCell.le {x p num den : Nat} (h : f.InCell x num den) (hden : 0 < den)
    (hp : num ≤ f.units p * den) : x ≤ p := by
  by_contra hlt
  have hbelow : f.units p ≤ f.units (x - 1) := f.units_strictMono.monotone (by omega)
  have hself : f.units p < f.units x := f.units_strictMono (by omega)
  have hsum : 2 * f.units p < f.units (x - 1) + f.units x := by omega
  have hlarge := Nat.mul_lt_mul_of_pos_right hsum hden
  have := h.1
  rw [Nat.mul_assoc] at hlarge
  omega

theorem InCell.ge {x p num den : Nat} (h : f.InCell x num den) (hden : 0 < den)
    (hp : f.units p * den ≤ num) : p ≤ x := by
  by_contra hlt
  have habove : f.units (x + 1) ≤ f.units p := f.units_strictMono.monotone (by omega)
  have hself : f.units x < f.units p := f.units_strictMono (by omega)
  have hsum : f.units x + f.units (x + 1) < 2 * f.units p := by omega
  have hsmall := Nat.mul_lt_mul_of_pos_right hsum hden
  have := h.2.1
  rw [Nat.mul_assoc] at hsmall
  omega

/-- A number is no farther than half a step from what it is rounded to. -/
theorem InCell.close {x num den t : Nat} (h : f.InCell x num den)
    (hx : f.units x < 2 * f.binade * 2 ^ t) :
    2 * (f.units x * den) ≤ 2 * num + 2 ^ t * den ∧ 2 * num ≤ 2 * (f.units x * den) + 2 ^ t * den := by
  have hprevious : f.units x ≤ f.units (x - 1) + 2 ^ t := by
    cases x with
    | zero => simp
    | succ x => exact units_succ_le ((f.units_lt_succ x).trans hx)
  have hnext := units_succ_le hx
  have hlow : 2 * f.units x ≤ f.units (x - 1) + f.units x + 2 ^ t := by omega
  have hhigh : f.units x + f.units (x + 1) ≤ 2 * f.units x + 2 ^ t := by omega
  have hbelow := Nat.mul_le_mul_right den hlow
  have habove := Nat.mul_le_mul_right den hhigh
  have hcell := And.intro h.1 h.2.1
  simp only [Nat.add_mul, Nat.mul_assoc] at *
  omega

theorem reads_of_between {k count : Nat} {e : Int}
    (hlow : (f.units (k - 1) + f.units k) * 10 ^ (-e).toNat <
      count * (2 ^ (f.scale + 1) * 10 ^ e.toNat))
    (hhigh : count * (2 ^ (f.scale + 1) * 10 ^ e.toNat) <
      (f.units k + f.units (k + 1)) * 10 ^ (-e).toNat) : f.reads k e count := by
  simp only [reads, Nat.pow_eq]
  split <;> simp only [Bool.and_eq_true, decide_eq_true_eq] <;> omega

theorem candidate_ne_none (tie : Tie) {k w : Nat} {e : Int}
    (hlow : f.units (k - 1) + f.units k + w = 2 * f.units k)
    (hhigh : f.units k + f.units (k + 1) = 2 * f.units k + w)
    (hstep : 10 ^ e.toNat * 2 ^ f.scale < w * 10 ^ (-e).toNat) : f.candidate tie k e ≠ none := by
  simp only [candidate, Nat.pow_eq]
  have hlow := congrArg (· * 10 ^ (-e).toNat) hlow
  have hhigh := congrArg (· * 10 ^ (-e).toNat) hhigh
  simp only [Nat.add_mul _ w] at hlow hhigh
  have hpos : 0 < 2 ^ (f.scale + 1) * 10 ^ e.toNat := by positivity
  have hdiv := Nat.div_add_mod (2 * f.units k * 10 ^ (-e).toNat) (2 ^ (f.scale + 1) * 10 ^ e.toNat)
  have hmod := Nat.mod_lt (2 * f.units k * 10 ^ (-e).toNat) hpos
  have htwice : 2 ^ (f.scale + 1) * 10 ^ e.toNat = 2 * (10 ^ e.toNat * 2 ^ f.scale) := by ring
  have hreads : f.reads k e (2 * f.units k * 10 ^ (-e).toNat / (2 ^ (f.scale + 1) * 10 ^ e.toNat)) ∨
      f.reads k e (2 * f.units k * 10 ^ (-e).toNat / (2 ^ (f.scale + 1) * 10 ^ e.toNat) + 1) := by
    rw [Nat.mul_comm] at hdiv
    rcases lt_or_ge (2 * f.units k * 10 ^ (-e).toNat % (2 ^ (f.scale + 1) * 10 ^ e.toNat))
      (w * 10 ^ (-e).toNat) with hrest | hrest
    · exact .inl (reads_of_between (by omega) (by omega))
    · refine .inr (reads_of_between ?_ ?_) <;> rw [Nat.succ_mul] <;> omega
  generalize f.reads k e (2 * f.units k * 10 ^ (-e).toNat / (2 ^ (f.scale + 1) * 10 ^ e.toNat)) =
    below at hreads ⊢
  generalize f.reads k e (2 * f.units k * 10 ^ (-e).toNat / (2 ^ (f.scale + 1) * 10 ^ e.toNat) + 1) =
    above at hreads ⊢
  cases below <;> cases above
  · simp at hreads
  · simp
  · simp
  · simp only
    split_ifs <;> simp

theorem candidateFrom_exponent_ge (tie : Tie) {pattern fuel : Nat} {least exponent : Int}
    (hleast : f.candidate tie pattern least ≠ none) (hstart : least ≤ exponent)
    (hfuel : exponent - least < fuel) :
    least ≤ (f.candidateFrom tie pattern fuel exponent).exponent := by
  induction fuel generalizing exponent with
  | zero => omega
  | succ fuel ih =>
    simp only [candidateFrom]
    split
    · exact hstart
    · next hnone =>
      have hne : exponent ≠ least := by
        rintro rfl
        exact hleast hnone
      exact ih (by omega) (by omega)

theorem shortest_exponent_ge (tie : Tie) {k : Nat} {least : Int}
    (hleast : f.candidate tie k least ≠ none) (hlow : -f.scale ≤ least)
    (hhigh : 0 < least → 10 ^ least.toNat * 2 ^ f.scale ≤ f.units (k + 1)) :
    least ≤ (f.shortest tie k).exponent := by
  refine candidateFrom_exponent_ge tie hleast ?_ (by push_cast; omega)
  by_contra hlt
  simp only [Nat.pow_eq] at hlt
  have hpow : 10 ^ least.toNat ≤ f.units (k + 1) / 2 ^ f.scale :=
    (Nat.le_div_iff_mul_le (Nat.two_pow_pos _)).2 (hhigh (by omega))
  have hself := Nat.lt_log2_self (n := f.units (k + 1) / 2 ^ f.scale)
  have hexponent : (f.units (k + 1) / 2 ^ f.scale).log2 + 1 < least.toNat := by omega
  have hbase : 2 ^ least.toNat ≤ 10 ^ least.toNat := Nat.pow_le_pow_left (by omega) _
  have hlarge : 2 ^ ((f.units (k + 1) / 2 ^ f.scale).log2 + 1) ≤ 2 ^ least.toNat :=
    Nat.pow_le_pow_right (by omega) (by omega)
  omega

theorem double_regular : double.Regular := ⟨by decide, by decide, by decide⟩

/-- Half a unit of singles is `2 ^ (finer + 28)` units of doubles. -/
@[irreducible] def finer : Nat := 896

theorem double_scale : double.scale = single.scale + 1 + (finer + 28) := by
  unfold finer
  decide

theorem exists_halfway (k : Nat) :
    ∃ p, double.units p = (single.units k + single.units (k + 1)) * 2 ^ (finer + 28) := by
  obtain ⟨s, r, rfl, hlow, hr⟩ := single.exists_steps k
  rw [Nat.add_assoc, units_steps hlow (by omega), units_steps (by omega) (by omega)]
  have hsingle : single.binade = 2 ^ 23 := rfl
  have hdouble : double.binade = 2 ^ 52 := rfl
  obtain ⟨p, hp⟩ := exists_units (f := double) (m := 2 * r + 1) (by omega) (s + (finer + 28))
  refine ⟨p, ?_⟩
  rw [hp, Nat.pow_add]
  ring

theorem halfway_lt_infinity {k p : Nat} (hk : k < single.infinity)
    (hp : double.units p = (single.units k + single.units (k + 1)) * 2 ^ (finer + 28)) :
    p < double.infinity := by
  refine double.units_strictMono.lt_iff_lt.1 ?_
  have hunits : single.units k ≤ single.units single.infinity :=
    single.units_strictMono.monotone hk.le
  have hunits' : single.units (k + 1) ≤ single.units single.infinity :=
    single.units_strictMono.monotone hk
  have hlarge : 2 * single.units single.infinity * 2 ^ (finer + 28) < double.units double.infinity := by
    decide +kernel
  rw [hp]
  refine (Nat.mul_le_mul_right _ ?_).trans_lt hlarge
  omega

/-- A decimal that rounds to a single rounds to a double that is between the same halfway numbers. -/
theorem DecimalInCell.inDouble {k digits : Nat} {e : Int} (hpos : 0 < k) (hk : k < single.infinity)
    (h : single.DecimalInCell k digits e) :
    double.DecimalInCell (double.ofDecimal digits e) digits e ∧
      (single.units (k - 1) + single.units k) * 2 ^ (finer + 28) ≤
        double.units (double.ofDecimal digits e) ∧
      double.units (double.ofDecimal digits e) ≤
        (single.units k + single.units (k + 1)) * 2 ^ (finer + 28) := by
  have hden : 0 < 10 ^ (-e).toNat := Nat.pow_pos (by omega)
  obtain ⟨x, -, hx⟩ := nearest_cell double_regular.digits (digits * 10 ^ e.toNat) hden
  obtain ⟨low, hlow⟩ := exists_halfway (k - 1)
  obtain ⟨high, hhigh⟩ := exists_halfway k
  rw [Nat.sub_add_cancel hpos] at hlow
  have hscale : 2 * (digits * 10 ^ e.toNat * 2 ^ single.scale) * 2 ^ (finer + 28) =
      digits * 10 ^ e.toNat * 2 ^ double.scale := by
    rw [double_scale, Nat.pow_add, Nat.pow_succ]
    ring
  have hge : low ≤ x := by
    refine hx.ge hden ?_
    rw [hlow, ← hscale, Nat.mul_right_comm]
    exact Nat.mul_le_mul_right _ h.1
  have hle : x ≤ high := by
    refine hx.le hden ?_
    rw [hhigh, ← hscale, Nat.mul_right_comm (_ + _)]
    exact Nat.mul_le_mul_right _ h.2.1
  have hlowpos : 0 < low := by
    refine double.units_strictMono.lt_iff_lt.1 ?_
    have hzero : double.units 0 = 0 := by decide
    have hunits := single.units_pos hpos
    rw [hzero, hlow]
    exact Nat.mul_pos (by omega) (Nat.two_pow_pos _)
  have hx' : double.ofDecimal digits e = x :=
    ofDecimal_of_cell double_regular (hlowpos.trans_le hge)
      (hle.trans_lt (halfway_lt_infinity hk hhigh)) hx
  rw [hx', ← hlow, ← hhigh]
  exact ⟨hx, double.units_strictMono.monotone hge, double.units_strictMono.monotone hle⟩

theorem convert_eq (f g : BinaryFormat) (x : Nat) :
    f.convert g x = g.nearest (f.units x) (2 ^ f.scale) := rfl

/-- The double of a decimal near a single is rounded to that single, unless it is halfway to another
one. -/
theorem convert_ofDecimal {k digits : Nat} {e : Int} (hpos : 0 < k) (hk : k < single.infinity)
    (h : single.DecimalInCell k digits e)
    (hlow : k % 2 = 1 → double.units (double.ofDecimal digits e) ≠
      (single.units (k - 1) + single.units k) * 2 ^ (finer + 28))
    (hhigh : k % 2 = 1 → double.units (double.ofDecimal digits e) ≠
      (single.units k + single.units (k + 1)) * 2 ^ (finer + 28)) :
    double.convert single (double.ofDecimal digits e) = k := by
  obtain ⟨-, hge, hle⟩ := h.inDouble hpos hk
  rw [convert_eq]
  refine nearest_of_inCell single_regular.digits (Nat.two_pow_pos _) hk.le ?_
  generalize double.units (double.ofDecimal digits e) = u at *
  have hscale : ∀ m, m * 2 ^ double.scale = 2 * (m * 2 ^ (finer + 28) * 2 ^ single.scale) := by
    intro m
    rw [double_scale, Nat.pow_add, Nat.pow_succ]
    ring
  have hpow := Nat.two_pow_pos single.scale
  simp only [InCell, hscale]
  refine ⟨?_, ?_, ?_⟩
  · exact Nat.mul_le_mul_left 2 (Nat.mul_le_mul_right _ hge)
  · exact Nat.mul_le_mul_left 2 (Nat.mul_le_mul_right _ hle)
  · intro hends
    by_contra heven
    have hodd : k % 2 = 1 := by omega
    rcases hends with hend | hend
    · exact hlow hodd (Nat.eq_of_mul_eq_mul_right hpow (Nat.eq_of_mul_eq_mul_left two_pos hend)).symm
    · exact hhigh hodd (Nat.eq_of_mul_eq_mul_right hpow (Nat.eq_of_mul_eq_mul_left two_pos hend))

/-- An odd single is in the middle of its cell, and the ends of the cell are odd multiples of half the
distance to its neighbours. -/
theorem odd_steps {k : Nat} (hodd : k % 2 = 1) (hk : k < single.infinity) :
    ∃ s r, s < 254 ∧ r % 2 = 1 ∧ r < 2 ^ 24 ∧ (0 < s → 2 ^ 23 < r) ∧ k = s * 2 ^ 23 + r ∧
      single.units k = r * 2 ^ s ∧
      single.units (k - 1) + single.units k = (2 * r - 1) * 2 ^ s ∧
      single.units k + single.units (k + 1) = (2 * r + 1) * 2 ^ s := by
  obtain ⟨s, r, rfl, hlow, hr⟩ := single.exists_steps k
  have hbinade : single.binade = 2 ^ 23 := rfl
  have hinfinity : single.infinity = 255 * 2 ^ 23 := rfl
  rw [hbinade] at hlow hr hodd hk
  rw [hinfinity] at hk
  have hrodd : r % 2 = 1 := by omega
  have hself := units_steps (f := single) (s := s) (r := r) (by omega) (by omega)
  have hbelow := halfway_below (f := single) (s := s) (r := r) (by omega) (by omega) (by omega)
  have habove := units_steps (f := single) (s := s) (r := r + 1) (by omega) (by omega)
  rw [hbinade] at hself hbelow habove ⊢
  refine ⟨s, r, by omega, hrodd, by omega, by omega, rfl, hself, ?_, ?_⟩
  · rw [Nat.sub_mul, Nat.one_mul]
    omega
  · rw [Nat.add_assoc, hself, habove]
    ring

theorem grid_le_exponent {k s r : Nat} (hs : s < 254) (hr : 0 < r)
    (hself : single.units k = r * 2 ^ s)
    (hbelow : single.units (k - 1) + single.units k = (2 * r - 1) * 2 ^ s)
    (habove : single.units k + single.units (k + 1) = (2 * r + 1) * 2 ^ s) :
    grid s ≤ (single.shortest .up k).exponent := by
  have hstep := grid_lt s hs
  have hpow := Nat.two_pow_pos s
  have hcandidate : single.candidate .up k (grid s) ≠ none := by
    refine candidate_ne_none .up (w := 2 ^ s) ?_ ?_ hstep
    · rw [hbelow, hself, ← Nat.succ_mul, ← Nat.mul_assoc]
      congr 1
      omega
    · rw [habove, hself]
      ring
  refine shortest_exponent_ge .up hcandidate ?_ fun hpos => ?_
  · have hscale : single.scale = 149 := rfl
    simp only [grid, hscale]
    omega
  · have hzero : (-grid s).toNat = 0 := by omega
    rw [hzero, Nat.pow_zero, Nat.mul_one] at hstep
    have hone : 2 ^ s ≤ r * 2 ^ s := Nat.le_mul_of_pos_left _ hr
    have hnext := single.units_lt_succ k
    exact (hstep.trans_le (by omega)).le

theorem regrid {e g : Int} (h : g ≤ e) :
    10 ^ (e - g).toNat * 10 ^ g.toNat * 10 ^ (-e).toNat = 10 ^ e.toNat * 10 ^ (-g).toNat := by
  rw [← Nat.pow_add, ← Nat.pow_add, ← Nat.pow_add]
  congr 1
  omega

/-- A decimal that is not halfway although its double is: this is a near miss. -/
theorem returns_of_halfway {s n digits x : Nat} {e : Int} (hs : s < 254) (hgrid : grid s ≤ e)
    (hdigits : digits ≠ 0) (hodd : n % 2 = 1) (hlow : 0 < s → 2 ^ 24 ≤ n) (hhigh : n < 2 ^ 25)
    (hx : double.DecimalInCell x digits e) (hunits : double.units x = n * 2 ^ s * 2 ^ (finer + 28))
    (hne : 2 * (digits * 10 ^ e.toNat * 2 ^ single.scale) ≠ n * 2 ^ s * 10 ^ (-e).toNat) :
    Returns s n := by
  have hsmall : double.units x < 2 * double.binade * 2 ^ (s + finer) := by
    have hbinade : double.binade = 2 ^ 52 := rfl
    have hpow : 0 < 2 ^ s * 2 ^ finer := Nat.mul_pos (Nat.two_pow_pos _) (Nat.two_pow_pos _)
    calc double.units x = n * 2 ^ 28 * (2 ^ s * 2 ^ finer) := by rw [hunits]; ring
      _ < 2 ^ 25 * 2 ^ 28 * (2 ^ s * 2 ^ finer) := by gcongr
      _ = _ := by rw [hbinade]; ring
  obtain ⟨hbelow, habove⟩ := hx.close hsmall
  have hscale : double.scale = 150 + (finer + 28) := double_scale
  have hsingle : single.scale = 149 := rfl
  have hregrid := regrid hgrid
  rw [hunits, hscale] at hbelow habove
  rw [hsingle] at hne
  have hclears := gridFractions_clear s hs
  rw [gridNum, gridDen] at hclears
  have hfactor : 0 < 2 ^ finer * 10 ^ (-e).toNat := by positivity
  refine hclears.returns (c := digits * 10 ^ (e - grid s).toNat) (by positivity) (by positivity) hodd
    hlow hhigh (fun heq => hne ?_) ?_ ?_
  · refine Nat.eq_of_mul_eq_mul_right (m := 10 ^ (-grid s).toNat) (by positivity) ?_
    calc _ = digits * (10 ^ e.toNat * 10 ^ (-grid s).toNat) * 2 ^ 150 := by ring
      _ = digits * 10 ^ (e - grid s).toNat * (10 ^ (grid s).toNat * 2 ^ 150) * 10 ^ (-e).toNat := by
        rw [← hregrid]; ring
      _ = _ := by rw [heq]; ring
  · refine Nat.le_of_mul_le_mul_left ?_ hfactor
    calc _ = 10 ^ (-grid s).toNat * (2 * (n * 2 ^ s * 2 ^ (finer + 28) * 10 ^ (-e).toNat)) := by ring
      _ ≤ 10 ^ (-grid s).toNat * (2 * (digits * 10 ^ e.toNat * 2 ^ (150 + (finer + 28))) +
          2 ^ (s + finer) * 10 ^ (-e).toNat) := Nat.mul_le_mul_left _ hbelow
      _ = 2 ^ 29 * digits * (10 ^ e.toNat * 10 ^ (-grid s).toNat) * 2 ^ 150 * 2 ^ finer +
          10 ^ (-grid s).toNat * 2 ^ s * 2 ^ finer * 10 ^ (-e).toNat := by ring
      _ = _ := by rw [← hregrid]; ring
  · refine Nat.le_of_mul_le_mul_left ?_ hfactor
    calc _ = 2 ^ 29 * digits * (10 ^ (e - grid s).toNat * 10 ^ (grid s).toNat * 10 ^ (-e).toNat) *
          2 ^ 150 * 2 ^ finer := by ring
      _ = 10 ^ (-grid s).toNat * (2 * (digits * 10 ^ e.toNat * 2 ^ (150 + (finer + 28)))) := by
        rw [hregrid]; ring
      _ ≤ 10 ^ (-grid s).toNat * (2 * (n * 2 ^ s * 2 ^ (finer + 28) * 10 ^ (-e).toNat) +
          2 ^ (s + finer) * 10 ^ (-e).toNat) := Nat.mul_le_mul_left _ habove
      _ = _ := by ring

/-- An odd single whose decimal has a halfway double comes back all the same, or is the one that is
lost. -/
theorem recoded_of_halfway {k : Nat} (hodd : k % 2 = 1) (hk : k < single.infinity)
    (h : double.units (double.ofDecimal (single.shortest .up k).digits (single.shortest .up k).exponent) =
        (single.units (k - 1) + single.units k) * 2 ^ (finer + 28) ∨
      double.units (double.ofDecimal (single.shortest .up k).digits (single.shortest .up k).exponent) =
        (single.units k + single.units (k + 1)) * 2 ^ (finer + 28)) :
    recoded k = k ∨ k = lostPattern := by
  have hpos : 0 < k := by omega
  have hcell := shortest_inCell (f := single) .up hpos
  have hdigits := hcell.digits_pos hpos
  obtain ⟨hdouble, -, -⟩ := hcell.inDouble hpos hk
  obtain ⟨s, r, hs, hr, hsmall, hlarge, hself, hunits, hbelow, habove⟩ := odd_steps hodd hk
  have hgrid := grid_le_exponent hs (by omega) hunits hbelow habove
  have hinside := hcell.2.2
  rw [hbelow, habove] at h hinside
  have hpattern : oddPattern s (2 * r - 1) = k ∧ oddPattern s (2 * r + 1) = k := by
    simp only [oddPattern]
    omega
  rcases h with h | h
  · have hreturns : Returns s (2 * r - 1) := by
      refine returns_of_halfway hs hgrid hdigits (by omega) (by omega) (by omega) hdouble h ?_
      exact fun heq => absurd (hinside (.inl heq.symm)) (by omega)
    rwa [Returns, hpattern.1] at hreturns
  · have hreturns : Returns s (2 * r + 1) := by
      refine returns_of_halfway hs hgrid hdigits (by omega) (by omega) (by omega) hdouble h ?_
      exact fun heq => absurd (hinside (.inr heq)) (by omega)
    rwa [Returns, hpattern.2] at hreturns

theorem recoded_eq {k : Nat} (hpos : 0 < k) (hk : k < single.infinity) (hlost : k ≠ lostPattern) :
    recoded k = k := by
  by_contra hchanged
  refine hchanged (convert_ofDecimal hpos hk (shortest_inCell .up hpos) ?_ ?_) <;> intro hodd hend
  · exact (recoded_of_halfway hodd hk (.inl hend)).elim hchanged hlost
  · exact (recoded_of_halfway hodd hk (.inr hend)).elim hchanged hlost

theorem recoded_lostPattern : recoded lostPattern = lostPattern + 1 := by
  decide +kernel

end ShaderLift.Numeral.BinaryFormat

namespace ShaderLift

open Numeral BinaryFormat

theorem Double.negative_ofPattern (negative : Bool) {p : Nat} (hp : p < double.signBit) :
    (ofPattern negative p).negative = negative := by
  have hbit : double.signBit = 2 ^ 63 := by decide
  rw [hbit] at hp
  simp only [Double.negative, ofPattern, UInt64.toNat_ofNat', hbit]
  cases negative <;> simp <;> omega

theorem toSingle_ofSingle {v : Single} (hv : v.isFinite) :
    (Double.ofSingle v).toSingle =
      if v.pattern = lostPattern then .ofPattern v.negative (lostPattern + 1) else v := by
  have hk : v.pattern < single.infinity := by simpa [Single.isFinite] using hv
  have hdecimal : double.ofDecimal v.decimal.digits v.decimal.exponent < double.signBit :=
    Nat.lt_of_le_of_lt (ofDecimal_le _ _ _) (by decide)
  rw [Double.toSingle, Double.ofSingle, Double.pattern_ofPattern _ hdecimal,
    Double.negative_ofPattern _ hdecimal]
  by_cases hzero : v.pattern = 0
  · have hd : v.decimal = ⟨0, 0⟩ := if_pos hzero
    have hback : double.convert .single (double.ofDecimal 0 0) = 0 := by decide +kernel
    have hother : ¬v.pattern = lostPattern := by
      rw [hzero]
      decide
    rw [hd, hback, if_neg hother, ← hzero, Single.ofPattern_pattern]
  · have hd : double.convert single (double.ofDecimal v.decimal.digits v.decimal.exponent) =
        recoded v.pattern := by
      rw [Single.decimal, if_neg hzero]
      rfl
    rw [hd]
    split
    · next hlost => rw [hlost, recoded_lostPattern]
    · next hlost => rw [recoded_eq (by omega) hk hlost, Single.ofPattern_pattern]

namespace Scalar

def Finite : Scalar → Prop
  | int _ => True
  | float x => x.isFinite

instance : DecidablePred Finite
  | int _ => inferInstanceAs (Decidable True)
  | float x => inferInstanceAs (Decidable (x.isFinite = true))

theorem toNumber?_float {x : Single} (hx : x.isFinite) :
    (float x).toNumber? = some (.real (.ofSingle x)) := if_pos hx

theorem ofNumber?_ofSingle {x : Single} (hx : x.isFinite) :
    ofNumber? .float (.real (.ofSingle x)) = some (float (Double.ofSingle x).toSingle) :=
  if_pos (toSingle_ofSingle_finite hx)

/-- Every finite value has a number in metadata, and all but two singles are read back from it. These
two come back as the next greater in magnitude. -/
theorem read_back_of_finite {v : Scalar} (hv : v.Finite) :
    ∃ n, v.toNumber? = some n ∧
      ((∀ x, v = float x → x.pattern ≠ lostPattern) → ofNumber? v.type n = some v) ∧
      ∀ x, v = float x → x.pattern = lostPattern →
        ofNumber? v.type n = some (float (.ofPattern x.negative (lostPattern + 1))) := by
  cases v with
  | int i => exact ⟨.whole i.toInt, rfl, fun _ => int_stable i, by rintro _ ⟨⟩⟩
  | float x =>
    refine ⟨_, toNumber?_float hv, fun hlost => ?_, ?_⟩
    · rw [type, ofNumber?_ofSingle hv, toSingle_ofSingle hv, if_neg (hlost x rfl)]
    · rintro _ ⟨rfl⟩ hlost
      rw [type, ofNumber?_ofSingle hv, toSingle_ofSingle hv, if_pos hlost]

/-- The least subnormal is read back. -/
theorem least_read_back :
    (float ⟨1⟩).Finite ∧ ∃ n, (float ⟨1⟩).toNumber? = some n ∧ ofNumber? .float n = some (float ⟨1⟩) := by
  have hv : (float ⟨1⟩).Finite := by decide
  obtain ⟨n, hn, hback, -⟩ := read_back_of_finite hv
  refine ⟨hv, n, hn, hback ?_⟩
  rintro _ ⟨rfl⟩
  decide

/-- `7.038531e-26` is read back as `7.0385313e-26`. -/
theorem not_read_back :
    (float ⟨0x15ae43fd⟩).toNumber? = some (.real ⟨0x3ab5c87fb0000000⟩) ∧
      ofNumber? .float (.real ⟨0x3ab5c87fb0000000⟩) = some (float ⟨0x15ae43fe⟩) := by
  decide +kernel

end Scalar
end ShaderLift
