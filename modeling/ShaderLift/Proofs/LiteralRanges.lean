import Mathlib
import ShaderLift.Proofs.ArrayContents
import ShaderLift.Proofs.IntegerLiterals
import ShaderLift.Proofs.TokenPatterns

/-!
Literals that are no tokens. An integer literal has to fit in 32 bits and a float literal has to be
nearer to a finite single than to the power of two beyond them all; a literal is given up for no
other reason than that, or for a digit that octal numbers do not have.
-/

namespace ShaderLift

namespace Numeral.BinaryFormat

/-- Halfway from the largest single to the power of two that would come next, from where on numbers
are rounded to infinity. -/
def singleLimit : Nat := 2 ^ 128 - 2 ^ 103

theorem nearest_infinity {num den : Nat} (hden : 0 < den)
    (h : single.nearest num den = single.infinity) : singleLimit * den ≤ num := by
  obtain ⟨k, hk, hcell⟩ := nearest_cell (f := single) (by decide) num hden
  have hle : single.infinity ≤ k := by omega
  have hbelow : single.units (single.infinity - 1) ≤ single.units (k - 1) :=
    single.units_strictMono.monotone (by omega)
  have hat : single.units single.infinity ≤ single.units k := single.units_strictMono.monotone hle
  have hhalf : single.units (single.infinity - 1) + single.units single.infinity =
      2 * (singleLimit * 2 ^ single.scale) := by decide +kernel
  have hlow : 2 * (singleLimit * 2 ^ single.scale) * den ≤ 2 * (num * 2 ^ single.scale) :=
    (Nat.mul_le_mul_right den (by omega)).trans hcell.1
  refine Nat.le_of_mul_le_mul_right ?_ (Nat.two_pow_pos (single.scale + 1))
  calc singleLimit * den * 2 ^ (single.scale + 1)
      = 2 * (singleLimit * 2 ^ single.scale) * den := by ring
    _ ≤ 2 * (num * 2 ^ single.scale) := hlow
    _ = num * 2 ^ (single.scale + 1) := by ring

theorem ofDecimal_infinity {digits : Nat} {exponent : Int}
    (h : single.ofDecimal digits exponent = single.infinity) :
    (singleLimit : ℚ) ≤ digits * 10 ^ exponent := by
  have hzero : (0 : Nat) ≠ single.infinity := by decide
  have hbits : single.exponentBits = 8 := rfl
  simp only [ofDecimal, Nat.pow_eq, hbits] at h
  split_ifs at h with hdigits hlarge hsmall hsign
  · exact absurd h hzero
  · obtain ⟨e, rfl⟩ : ∃ e : Nat, exponent = e := ⟨exponent.toNat, by omega⟩
    have hone : (1 : ℚ) ≤ digits := by exact_mod_cast Nat.one_le_iff_ne_zero.2 hdigits
    have hlimit : singleLimit ≤ 10 ^ 128 := by decide
    calc (singleLimit : ℚ) ≤ 10 ^ 128 := by exact_mod_cast hlimit
      _ ≤ 10 ^ e := pow_le_pow_right₀ (by norm_num) (by omega)
      _ ≤ digits * 10 ^ (e : Int) := by
        rw [zpow_natCast]
        exact le_mul_of_one_le_left (by positivity) hone
  · exact absurd h hzero
  · obtain ⟨e, rfl⟩ : ∃ e : Nat, exponent = e := ⟨exponent.toNat, by omega⟩
    have hbound := nearest_infinity Nat.one_pos h
    rw [Int.toNat_natCast, Nat.mul_one] at hbound
    rw [zpow_natCast]
    exact_mod_cast hbound
  · obtain ⟨e, rfl⟩ : ∃ e : Nat, exponent = -e := ⟨(-exponent).toNat, by omega⟩
    have hbound := nearest_infinity (Nat.pow_pos (by decide)) h
    rw [neg_neg, Int.toNat_natCast] at hbound
    rw [zpow_neg, zpow_natCast, ← div_eq_mul_inv, le_div_iff₀ (by positivity)]
    exact_mod_cast hbound

end Numeral.BinaryFormat

theorem Single.ofDecimal?_none {digits : Nat} {exponent : Int}
    (h : Single.ofDecimal? digits exponent = none) :
    (Numeral.BinaryFormat.singleLimit : ℚ) ≤ digits * 10 ^ exponent := by
  have hle := Numeral.BinaryFormat.single.ofDecimal_le digits exponent
  have hinfinity : Numeral.BinaryFormat.single.infinity = 2139095040 := rfl
  have hsign : Numeral.BinaryFormat.single.signBit = 2147483648 := rfl
  have hpattern := Single.pattern_ofPattern false
    (p := Numeral.BinaryFormat.single.ofDecimal digits exponent) (by omega)
  simp only [Single.ofDecimal?, Single.isFinite, hpattern] at h
  refine Numeral.BinaryFormat.ofDecimal_infinity (Nat.le_antisymm hle ?_)
  simpa using h

namespace Lexer

open Numeral Pattern

/-- The number that digits before and after a point denote. -/
def realValue (whole fraction exponent : List Char) : ℚ :=
  (Nat.ofDigits 10 ((whole ++ fraction).map digitValue).reverse : Nat) *
    10 ^ (exponentValue exponent - fraction.length)

/-- The text of a float literal and the number that it denotes. -/
inductive RealText : List Char → ℚ → Prop
  | pointed {whole fraction exponent suffix : List Char} (hwhole : ∀ c ∈ whole, c.isDigit)
      (hfraction : ∀ c ∈ fraction, c.isDigit) (hne : whole ≠ [] ∨ fraction ≠ [])
      (hexponent : exponent ∈ 1 + Pattern.exponent) (hsuffix : suffix ∈ 1 + oneOf isFloatMark) :
      RealText (whole ++ '.' :: (fraction ++ (exponent ++ suffix)))
        (realValue whole fraction exponent)
  | scaled {whole exponent suffix : List Char} (hne : whole ≠ []) (hwhole : ∀ c ∈ whole, c.isDigit)
      (hexponent : exponent ∈ Pattern.exponent) (hsuffix : suffix ∈ 1 + oneOf isFloatMark) :
      RealText (whole ++ (exponent ++ suffix)) (realValue whole [] exponent)

theorem RealText.mem_float {text : List Char} {x : ℚ} (h : RealText text x) :
    text ∈ Pattern.float := by
  cases h with
  | @pointed whole fraction exponent suffix hwhole hfraction hne hexponent hsuffix =>
    have hend : exponent ++ suffix ∈ floatEnd := Language.append_mem_mul hexponent hsuffix
    by_cases hempty : whole = []
    · subst hempty
      have hrun : fraction ∈ run Char.isDigit := mem_run.2 ⟨by simpa using hne, hfraction⟩
      refine .inl (.inr (oneOf_mul.2 ⟨'.', _, rfl, by decide, ?_⟩))
      exact Language.append_mem_mul hrun hend
    · refine .inl (.inl (Language.append_mem_mul (mem_run.2 ⟨hempty, hwhole⟩) ?_))
      refine oneOf_mul.2 ⟨'.', _, rfl, by decide, ?_⟩
      exact Language.append_mem_mul (mem_oneOf_kstar.2 hfraction) hend
  | scaled hne hwhole hexponent hsuffix =>
    refine .inr (Language.append_mem_mul (mem_run.2 ⟨hne, hwhole⟩) ?_)
    exact Language.append_mem_mul hexponent hsuffix

/-- A literal whose number is too large, or one with a zero in front and a digit beyond seven. -/
inductive OutOfRange : List Char → Prop
  | whole {digits suffix : List Char} {n : Nat} (hdigits : WholeText digits n)
      (hsuffix : IsSuffix suffix) (hn : 2 ^ 32 ≤ n) : OutOfRange (digits ++ suffix)
  | octal {digits suffix : List Char} (hdigits : ∀ c ∈ digits, c.isDigit)
      (hbad : '8' ∈ digits ∨ '9' ∈ digits) (hsuffix : IsSuffix suffix) :
      OutOfRange ('0' :: digits ++ suffix)
  | real {text : List Char} {x : ℚ} (htext : RealText text x)
      (hx : (BinaryFormat.singleLimit : ℚ) ≤ x) : OutOfRange text

theorem eight_or_nine {c : Char} (hc : c.isDigit) (hlarge : ¬c ≤ '7') : c = '8' ∨ c = '9' := by
  simp only [Char.isDigit, Bool.and_eq_true, decide_eq_true_eq, ge_iff_le,
    UInt32.le_iff_toNat_le] at hc
  rw [Char.le_def, UInt32.le_iff_toNat_le] at hlarge
  have hseven : '7'.val.toNat = 55 := rfl
  have hnine : '9'.val.toNat = 57 := rfl
  have hcases : c.val.toNat = 56 ∨ c.val.toNat = 57 := by omega
  rcases hcases with h | h
  · exact .inl (Char.ext (UInt32.toNat_inj.1 h))
  · exact .inr (Char.ext (UInt32.toNat_inj.1 h))

theorem whole_cases {digits : List Char} (h : digits ∈ Pattern.whole) :
    (∃ n, WholeText digits n) ∨
      ∃ more, digits = '0' :: more ∧ (∀ c ∈ more, c.isDigit) ∧ ('8' ∈ more ∨ '9' ∈ more) := by
  rcases h with h | h
  · obtain ⟨hne, hdigits⟩ := mem_run.1 h
    by_cases hzero : digits.head? = some '0' → digits = ['0']
    · exact .inl ⟨_, .decimal hne hdigits hzero⟩
    · obtain ⟨hhead, hmore⟩ := Classical.not_imp.1 hzero
      obtain ⟨more, rfl⟩ := List.head?_eq_some_iff.1 hhead
      have hdigits' := (List.forall_mem_cons.1 hdigits).2
      by_cases hseven : ∀ c ∈ more, c ≤ '7'
      · refine .inl ⟨_, .octal (by simpa using hmore) fun c hc => ⟨?_, hseven c hc⟩⟩
        have hc := hdigits' c hc
        simp only [Char.isDigit, Bool.and_eq_true, decide_eq_true_eq] at hc
        exact hc.1
      · obtain ⟨c, hc⟩ := not_forall.1 hseven
        obtain ⟨hc, hlarge⟩ := Classical.not_imp.1 hc
        refine .inr ⟨more, rfl, hdigits', ?_⟩
        rcases eight_or_nine (hdigits' c hc) hlarge with rfl | rfl
        · exact .inl hc
        · exact .inr hc
  · obtain ⟨x, more, rfl, hx, hne, hmore⟩ := mem_hexadecimal.1 h
    exact .inl ⟨_, .hexadecimal (by simpa [isHexMark] using hx) hne hmore⟩

theorem OutOfRange.of_integer {digits suffix : List Char} (hdigits : digits ∈ Pattern.whole)
    (hsuffix : IsSuffix suffix) (h : integerValue digits = none) :
    OutOfRange (digits ++ suffix) := by
  rcases whole_cases hdigits with ⟨n, hn⟩ | ⟨more, rfl, hmore, hbad⟩
  · refine .whole hn hsuffix ?_
    rw [integerValue_wholeText hn, ite_eq_right_iff] at h
    by_contra hlt
    cases h (by simpa [UInt32.size] using hlt)
  · exact .octal hmore hbad hsuffix

theorem OutOfRange.of_real {text whole fraction exponent : List Char}
    (htext : RealText text (realValue whole fraction exponent))
    (h : Single.ofDecimal? (value 10 (whole ++ fraction))
      (exponentValue exponent - fraction.length) = none) : OutOfRange text := by
  refine .real htext ?_
  have hlimit := Single.ofDecimal?_none h
  rw [value_eq_ofDigits] at hlimit
  exact hlimit

end Lexer

end ShaderLift
